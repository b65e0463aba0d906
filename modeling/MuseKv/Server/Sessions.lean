import MuseKv.Server.Basic

/-!
# The sessions of a server

`server_accept` and the loop of `server_task`, up to the accept loop of `main`: the sessions with
their threads, the list `sock_vec` and the counter `client_num`.  A session is named by its position
in the order of acceptance.  The body of `server_accept`, and each round of `server_task`, is one step;
the thread that scans a command runs within the round that received it.

`received` and `serverTask` are the bytes of one session: what `recv` left in `buf`, read as a string.
-/

namespace MuseKv

open Kvstore

/-- `MAX_CLIENT_NUM`. -/
def maxClientNum : Int := 100

/-! ### The messages of a session -/

/-- `com = ss->buf` after `recv` returned a chunk: the first 1024 bytes of `buf` were cleared before,
and `rest` is what the memory holds behind them. -/
def received (rest chunk : Str) : Str :=
  cString (if chunk.length < 1024 then chunk else chunk ++ rest)

/-- The strings that `server_task` passes to `scan_and_send`, over the chunks of a connection. -/
def serverTask (rest : Str) : List Str → List Str
  | [] => []
  | chunk :: chunks =>
    if received rest chunk = lit "quit" then []
    else received rest chunk :: serverTask rest chunks

/-! ### Accepting and ending sessions -/

/-- An accepted session: its `socket_st`, with the flag `online`, whether its thread is in the loop,
and whether the connection is open, that is, neither side has closed it or lost it. -/
structure ServerTask where
  session : Session := {}
  online : Bool := true
  running : Bool := true
  isOpen : Bool := true

/-- A server with its sessions; `accepting` is the accept loop of `main`. -/
structure Host where
  server : Server
  tasks : List ServerTask := []
  sockVec : List ℕ := []
  accepting : Bool := true

/-- The steps: `accept` returns a descriptor or an error; `recv` of session `i` returns a string, or
at most `0`, which is the end of the connection or an error; the round that sees the flag. -/
inductive HostEvent
  | accept (descriptor : Bool)
  | recv (i : ℕ) (com : Option Str) (currTime : Int) (connected : Bool)
  | offline (i : ℕ)

namespace Host

/-- `setup`. -/
def setup (w : World) : Host := { server := { w := w } }

/-- `over_client`. -/
def overClient (h : Host) : Bool := h.server.clientNum > maxClientNum

/-- `server_accept`, and the test of the accept loop that follows it. -/
def accept (h : Host) (descriptor : Bool) : Host :=
  if descriptor then
    let h : Host := { h with
      tasks := h.tasks ++ [{}]
      sockVec := h.sockVec ++ [h.tasks.length]
      server := { h.server with clientNum := h.server.clientNum + 1 } }
    { h with accepting := !h.overClient }
  else { h with accepting := !h.overClient }

/-- A round of `server_task` that gets to `recv`. -/
def recv (h : Host) (i : ℕ) (t : ServerTask) (com : Option Str) (currTime : Int) (connected : Bool) :
    Option Host :=
  match com with
  | none => some { h with tasks := h.tasks.set i { t with running := false, isOpen := false } }
  | some com =>
    if com = lit "quit" then some { h with tasks := h.tasks.set i { t with online := false } }
    else (scanAndSend h.server t.session com currTime connected).map fun x =>
      { h with server := x.server, tasks := h.tasks.set i { t with session := x.session } }

/-- A round of `server_task` that finds the flag cleared; erasing `end()` is a fault. -/
def offline (h : Host) (i : ℕ) (t : ServerTask) : Option Host :=
  if i ∈ h.sockVec then
    some { h with
      tasks := h.tasks.set i { t with running := false, isOpen := false }
      sockVec := h.sockVec.erase i
      server := { h.server with clientNum := h.server.clientNum - 1 } }
  else none

/-- One step; there is none when `main` has returned, or when the thread of a session is not at that
place of its loop. -/
def step (h : Host) : HostEvent → Option Host
  | .accept descriptor => if h.accepting then some (h.accept descriptor) else none
  | .recv i com currTime connected =>
    if h.accepting then h.tasks[i]?.bind fun t =>
      if t.running && t.online then h.recv i t com currTime connected else none
    else none
  | .offline i =>
    if h.accepting then h.tasks[i]?.bind fun t =>
      if t.running && !t.online then h.offline i t else none
    else none

/-- A run. -/
def run : List HostEvent → Host → Option Host
  | [], h => some h
  | e :: es, h => (h.step e).bind (run es)

end Host

end MuseKv
