import MuseKv.Encrypt.Text
import MuseKv.Server.Basic
import MuseKv.Command.Replay

/-!
# The command log

Every write starts a detached thread `log_append`, which encrypts its text and, when it has obtained
`log_mutex`, appends it to the file `log_<port>.txt` as a line.  The commands are executed one after
another, and the threads obtain the mutex in any order (`LoggedServer.step`).  `restore` executes the
lines of a file again, each decrypted to its text.
-/

namespace MuseKv

open General Kvstore Command Encrypt

/-- A thread `log_append`: the authority of its session, and the text it is handed. -/
structure LogAppend where
  auth : Int
  com : Str

namespace LogAppend

/-- The text that is encrypted: `log_append` puts the authority of the session behind it once more. -/
def text (a : LogAppend) : Str := a.com ++ (lit " " ++ backspace :: lit " " ++ toStr a.auth)

/-- The number written for a byte.  A `char` is signed, and is converted to `uint64_t`. -/
def number (c : UInt8) : ℕ := powMod (2 ^ 64) 1483513 (wrapU64 (charToInt c)) 28969

/-- The line without its end. -/
def line (a : LogAppend) : Str := a.text.flatMap fun c => toStr (number c) ++ [byte '\\']

end LogAppend

/-- A server with its log file and the `log_append` threads that have not obtained the mutex, in the
order in which they were started. -/
structure LoggedServer where
  server : Server
  threads : List LogAppend := []
  log : Str := []

namespace LoggedServer

/-- The steps: a command is executed, or a thread obtains the mutex. -/
inductive Step
  | command (ss : Session) (com : Str) (t : Int) (connected : Bool)
  | append (index : ℕ)

/-- One step. -/
def step (s : LoggedServer) : Step → Option LoggedServer
  | .command ss com t connected =>
    (scanAndSend s.server ss com t connected).map fun x =>
      { s with
        server := x.server
        threads := s.threads ++ x.log.toList.map fun com => ⟨ss.auth, com⟩ }
  | .append index =>
    s.threads[index]?.map fun a =>
      { s with
        threads := s.threads.eraseIdx index
        log := s.log ++ (a.line ++ [10]) }

/-- The runs whose steps all meet a condition, which may look at the state before the step. -/
inductive Run (ok : LoggedServer → Step → Prop) : LoggedServer → LoggedServer → Prop
  | refl (s : LoggedServer) : Run ok s s
  | tail {s s₁ s₂ : LoggedServer} {e : Step} (h : Run ok s s₁) (hok : ok s₁ e)
      (hstep : s₁.step e = some s₂) : Run ok s s₂

end LoggedServer

/-! ### Restoring -/

/-- `while(getline(in, lr))`: the end of the file ends a line too, if it has a byte. -/
def getLines (file : Str) : List Str :=
  if (file.splitOn 10).getLast? = some [] then (file.splitOn 10).dropLast else file.splitOn 10

/-- The lines of a log are decrypted and sent one after another.  `clock` tells the time when so many
lines are left. -/
def restore (password : Int) (ss : Session) (clock : ℕ → Int) (connected : Bool) :
    List Str → Server → Option Server
  | [], s => some s
  | line :: lines, s =>
    (decryptString modulus password line).bind fun com =>
      (scanAndSend s ss com (clock lines.length) connected).bind fun x =>
        restore password x.session clock connected lines x.server

/-! ### The commands of the log -/

/-- A server that was not told of another one: it has no peers and owns every slot. -/
structure Server.Standalone (s : Server) : Prop where
  clusterVec : s.clusterVec = []
  here : ∀ k, notHere s.w.h k = false

/-- An ASCII text, as it arrives in the buffer of a session. -/
def IsAscii (s : Str) : Prop := ∀ c ∈ s, c ≠ 0 ∧ c < 128

instance (s : Str) : Decidable (IsAscii s) := List.decidableBAll (fun c => c ≠ 0 ∧ c < 128) s

/-- A write that a client sends: a session holds its authority in an `int`. -/
structure Loggable (ss : Session) (com : Str) : Prop where
  auth : -2 ^ 31 ≤ ss.auth ∧ ss.auth < 2 ^ 31
  write : PlainWrite com
  ascii : IsAscii com
  plain : backspace ∉ com

/-- The key that a line of the log is about. -/
def LogAppend.key (a : LogAppend) : Str := keyOf (words (commandPart a.com))

namespace LoggedServer

/-- A server as it starts: a standalone one with an empty table and an empty log. -/
structure IsNew (s : LoggedServer) : Prop where
  standalone : s.server.Standalone
  empty : ∀ k, s.server.w.h.findNode k = none
  threads : s.threads = []
  log : s.log = []

/-- The steps of a run of writes, whose threads meet a condition when they obtain the mutex. -/
def Writes (ok : LoggedServer → ℕ → Prop) (s : LoggedServer) : Step → Prop
  | .command ss com _ _ => Loggable ss com
  | .append index => ok s index

/-- A thread does not overtake an earlier one whose line is about the same key. -/
def InOrder (s : LoggedServer) (index : ℕ) : Prop :=
  ∀ a, s.threads[index]? = some a → ∀ b ∈ s.threads.take index, b.key ≠ a.key

end LoggedServer

/-- The log of a server rebuilds its table: its lines are restored without a fault, at any times, on any
new server. -/
def Rebuilds (s : LoggedServer) : Prop :=
  ∀ (password : Int) (ss : Session) (clock : ℕ → Int) (connected : Bool) (r : Server),
    0 < password → 28969 * password % (1020 * 1452) = 1 → r.Standalone →
    (∀ k, r.w.h.findNode k = none) →
      ∃ r', restore password ss clock connected (getLines s.log) r = some r' ∧
        ∀ k, r'.w.h.findNode k = s.server.w.h.findNode k

end MuseKv
