import MuseKv.Server.Sessions

/-!
# The way of a command through a cluster

A node that does not own the key of a command sends the command to the owner, with its suffix.  When
that `send` returns `-1`, `try_cluster` hands the same text to a replica of the node, which sends it to
the owner in turn.  What comes of each send is an argument (`sends`).
-/

namespace MuseKv

open Kvstore

/-- What comes of a `send`, and of the `recv` behind it. -/
inductive Sending
  /-- The text arrives, and its reply is awaited. -/
  | arrives
  /-- `send` returns `-1`. -/
  | fails
  /-- `send` succeeds, as the first one does after the other end was closed, and `recv` returns `0` or
  `-1`. -/
  | lost
  /-- The connection is known to be broken, and the process ends by a `SIGPIPE`: no send is marked with
  `MSG_NOSIGNAL`, and the signal is not handled. -/
  | killed
  deriving DecidableEq

namespace Server

/-- The loop of `try_cluster`, from an index on: the first replica that a send reaches. -/
def tryClusterFrom (s : Server) (sends : Option Peer → Sending) : ℕ → ℕ → Option (Option Peer)
  | 0, _ => some none
  | fuel + 1, i =>
    s.replicaSock[i]?.bind fun sock =>
      match sends sock with
      | .arrives => some sock
      | .killed => none
      | _ => tryClusterFrom s sends fuel (i + 1)

/-- `try_cluster`: `none` inside when no replica is reached, and the answer is `" \b"`. -/
def tryCluster (s : Server) (sends : Option Peer → Sending) : Option (Option Peer) :=
  s.tryClusterFrom sends (s.replicaNum - 1).toNat 0

/-- The node that gets what is sent to `cluster_vec[index]`, or that `try_cluster` finds for it.  What
this `recv` returns is not looked at, so a text that is lost is not sent again. -/
def receiver (s : Server) (sends : Option Peer → Sending) (index : ℕ) : Option (Option Peer) :=
  s.clusterVec[index]?.bind fun sock =>
    match sends sock with
    | .arrives => some sock
    | .fails => s.tryCluster sends
    | .lost => some none
    | .killed => none

end Server

/-- The way of a client's command: the number of times it was sent on, the session it stands in at a
node, and the text that this node reads for what the memory behind its buffer holds.  The client's own
node has read it already.  A connection between two servers asks for no authority, and its `recv` takes
1024 bytes at most. -/
inductive Chain (ss₀ : Session) (com : Str) : ℕ → Session → (Str → Str) → Prop
  | client : Chain ss₀ com 0 ss₀ fun _ => com
  | sent {n : ℕ} {ss ss' : Session} {text : Str → Str} (h : Chain ss₀ com n ss text) {memory msg : Str}
      {s : Server} {t : Int} {connected : Bool} {y : Scan} {index : ℕ} {sends : Option Peer → Sending}
      {peer : Peer} (hscan : scanAndSend s ss (text memory) t connected = some y)
      (hsend : y.send = .peer index msg) (hpeer : y.server.receiver sends index = some (some peer))
      (hlink : ss'.auth = 0) :
      Chain ss₀ com (n + 1) ss' fun memory => received memory (msg.take 1024)

/-- Whatever the memory behind its buffer holds, what a node executes is the words of a command, with an
authority. -/
def RunsAs (com : Str) (a : Int) (ss : Session) (text : Str → Str) : Prop :=
  ∀ memory, words (commandPart (text memory)) = words com ∧ authority ss (text memory) = a

end MuseKv
