import MuseKv.Client.Basic
import MuseKv.Cluster.Serving

/-!
# `task_client` of `recover.cpp`

The lines of a file are sent one after another as they stand, and each reply is printed.  The buffer is
cleared with `sizeof` of a pointer, so behind its first eight bytes it keeps what longer replies left.
-/

namespace MuseKv.Recover

open Kvstore Command

/-- `memset(buf, 0, sizeof(buf))`. -/
def clear (buf : Str) : Str := List.replicate 8 0 ++ buf.drop 8

/-- `recv` into a buffer. -/
def fill (buf msg : Str) : Str := msg ++ buf.drop msg.length

/-- The server at the other end of the session, the buffer, and what was printed. -/
structure Task where
  server : Server
  session : Session
  buf : Str
  printed : List Str := []

/-- One round of the loop.  An empty line sends nothing, and an empty reply neither, so `recv` waits for
ever; `quit` ends the session. -/
def sendLine (memory : Str) (t : Int) (r : Task) (lr : Str) : Option Task :=
  if lr = [] || received memory lr = lit "quit" then none
  else (scanAndSend r.server r.session (received memory lr) t true).bind fun x =>
    match x.send with
    | .client msg =>
      if msg = [] then none
      else
        let buf := fill (clear r.buf) (msg.take 1024)
        some ⟨x.server, x.session, buf, r.printed ++ [cString buf]⟩
    | _ => none

/-- `while(getline(in, lr))`.  `clock` tells the time when so many lines are left. -/
def taskClient (memory : Str) (clock : ℕ → Int) : List Str → Task → Option Task
  | [], r => some r
  | lr :: lines, r => (sendLine memory (clock lines.length) r lr).bind (taskClient memory clock lines)

/-- The buffer behind the handshake: it was cleared as a whole before the last reply. -/
def startBuf (msg : Str) : Str := msg ++ List.replicate (1024 - msg.length) 0

/-- The commands of the lines. -/
def requests (auth : Int) (clock : ℕ → Int) : List Str → List Request
  | [] => []
  | lr :: lines => ⟨lr, toU8 auth, clock lines.length⟩ :: requests auth clock lines

/-- The commands of lines that may carry an authority of their own behind a backspace, as the texts of a log
do. -/
def performed (ss : Session) (clock : ℕ → Int) : List Str → List Request
  | [] => []
  | lr :: lines =>
    ⟨commandPart lr, toU8 (authority ss lr), clock lines.length⟩ :: performed ss clock lines

/-- What is printed of the replies, from a buffer on. -/
def prints : Str → List Str → List Str
  | _, [] => []
  | buf, msg :: msgs => cString (fill (clear buf) msg) :: prints (fill (clear buf) msg) msgs

/-- A line that arrives as it stands. -/
structure Arrives (lr : Str) : Prop where
  sent : lr ≠ []
  whole : lr.length < 1024
  text : (0 : UInt8) ∉ lr
  command : lr ≠ lit "quit"

/-- A line that arrives as it stands and is executed so. -/
structure Line (lr : Str) : Prop where
  sent : lr ≠ []
  whole : lr.length < 1024
  text : (0 : UInt8) ∉ lr ∧ backspace ∉ lr
  command : lr ≠ lit "quit"

end MuseKv.Recover
