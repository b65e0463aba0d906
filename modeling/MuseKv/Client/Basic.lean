import MuseKv.Server.Sessions

/-!
# `client.cpp` and `recover.cpp`

How a program on the other end of a session finds the replicas of the group it is connected to:
`get_replica_info` of `client.cpp` and of `recover.cpp`.  Each message is one `send`, and its reply one
`recv` into a cleared buffer.  Meanwhile the server serves other sessions: `node i` is its state when it
handles the message `i`.
-/

namespace MuseKv.Client

open Kvstore

/-- A message and the string in the buffer behind its reply; `memory` is what stands behind a buffer.  An
empty reply sends nothing, and `recv` waits for ever. -/
def exchange (memory : Str) (s : Server) (ss : Session) (com : Str) (t : Int) : Option (Str × Session) :=
  (scanAndSend s ss (received memory com) t true).bind fun x =>
    match x.send with
    | .client msg => if msg = [] then none else some (received memory (msg.take 1024), x.session)
    | _ => none

/-- The loop that asks for the replicas from an index on. -/
def give (memory : Str) (node : ℕ → Server) (clock : ℕ → Int) :
    ℕ → ℕ → Session → Option (List Peer × Session)
  | 0, _, ss => some ([], ss)
  | m + 1, i, ss =>
    (exchange memory (node (i + 1)) ss (lit "give " ++ toStr i) (clock (i + 1))).bind fun r =>
      (words r.1)[1]?.bind fun ip => (words r.1)[2]?.bind fun port =>
        (give memory node clock m (i + 1) r.2).map fun rest => ((ip, atoi port) :: rest.1, rest.2)

/-- What a program knows of the group: `replica_num`, and the addresses of `replica_ip` and
`replica_port`. -/
structure Directory where
  replicaNum : Int
  replicas : List Peer

/-- The first message, with the number that its reply holds. -/
def greet (auth : Int) (memory : Str) (s : Server) (t : Int) : Option (Int × Session) :=
  (exchange memory s {} (lit "client " ++ toStr auth) t).bind fun r =>
    (words r.1)[0]?.map fun arg => (atoi arg, r.2)

/-- `get_replica_info` of `client.cpp`; `new` throws on a negative number of cells. -/
def getReplicaInfo (auth : Int) (own : Peer) (memory : Str) (node : ℕ → Server) (clock : ℕ → Int) :
    Option (Directory × Session) :=
  (greet auth memory (node 0) (clock 0)).bind fun r =>
    if r.1 = 0 then some (⟨0, []⟩, r.2)
    else if r.1 < 0 then none
    else (give memory node clock (r.1 - 1).toNat 0 r.2).map fun rest =>
      (⟨r.1, own :: rest.1⟩, rest.2)

end MuseKv.Client

namespace MuseKv.Recover

open Client

/-- `get_replica_info` of `recover.cpp`, which does not enter its own address; `auth` is `0`, since the
branch that sets it is never taken. -/
def getReplicaInfo (memory : Str) (node : ℕ → Server) (clock : ℕ → Int) :
    Option (Directory × Session) :=
  (greet 0 memory (node 0) (clock 0)).bind fun r =>
    if r.1 < 0 then none
    else (give memory node clock (r.1 - 1).toNat 0 r.2).map fun rest => (⟨r.1, rest.1⟩, rest.2)

end MuseKv.Recover
