import MuseKv.Server.Basic

/-!
# The accesses of `scan_and_send`

The routines of `scan_and_send` once more, with every access to a character of a string and to a cell
of an array written out, and the fault it causes outside.  The text routines follow their loops, without
the `int`s of `Kvstore.Loops`: a message has fewer bytes than an `int` counts.  The setup messages are
given by their accesses, in the order of the source.  What a command does with its key and what is sent to
other nodes is left to `scanAndSend`.
-/

namespace MuseKv

open Kvstore Command

/-- What stops a server: a character outside a string, an element outside the words, an element outside
the arrays of the replicas, `substr` behind the end, and `new` with a negative number of cells. -/
inductive Fault
  | char
  | arg
  | cell
  | substr
  | length
  deriving DecidableEq, Repr

/-- A cell of an array. -/
def cellAt {α : Type} (fault : Fault) (cells : List α) (i : Int) : Except Fault α :=
  if h : 0 ≤ i ∧ i < cells.length then .ok (cells.get ⟨i.toNat, by omega⟩) else .error fault

/-- An assignment to a cell. -/
def store (cells : List Str) (i : ℕ) (x : Str) : Except Fault (List Str) :=
  (cellAt .arg cells i).map fun _ => cells.set i x

/-- `str[i]`: behind the last character stands a NUL. -/
def charAt (str : Str) (i : Int) : Except Fault UInt8 := cellAt .char (str ++ [0]) i

namespace Kvstore

/-! ### `trim` -/

/-- `while(str[i] == ' ' && i < str.length())`, where `rest` characters are left. -/
def skipLeading (str : Str) : ℕ → Except Fault ℕ
  | 0 => (charAt str str.length).map fun _ => str.length
  | rest + 1 => (charAt str (str.length - (rest + 1))).bind fun c =>
      if isBlank c then skipLeading str rest else .ok (str.length - (rest + 1))

/-- `while(str[i] == ' ' && i >= 0)`, from `i - 1` on. -/
def skipTrailing (str : Str) : ℕ → Except Fault ℕ
  | 0 => (charAt str (-1)).map fun _ => 0
  | i + 1 => (charAt str i).bind fun c => if isBlank c then skipTrailing str i else .ok (i + 1)

/-- `for(i = 0; i < int(str.length() - 1); i++)`, where `rest` rounds are left. -/
def squeezeLoop : ℕ → Str → ℕ → Except Fault Str
  | 0, str, _ => .ok str
  | rest + 1, str, i => (charAt str i).bind fun c =>
      if isBlank c then
        (charAt str (i + 1)).bind fun d =>
          if isBlank d then squeezeLoop rest (str.eraseIdx i) i else squeezeLoop rest str (i + 1)
      else squeezeLoop rest str (i + 1)

/-- `trim`, by its loops. -/
def trimAt (str : Str) : Except Fault Str :=
  if str = [] then .ok str
  else (skipLeading str str.length).bind fun i =>
    (skipTrailing (str.drop i) (str.drop i).length).bind fun j =>
      squeezeLoop (((str.drop i).take j).length - 1) ((str.drop i).take j) 0

/-! ### `split` -/

/-- The loop over the separators, of which `rest` are left. -/
def splitLoop (token : UInt8) : ℕ → Str → List Str → ℕ → Except Fault (List Str)
  | 0, str, splited, index => store splited index str
  | rest + 1, str, splited, index =>
    (store splited index (str.takeWhile (· ≠ token))).bind fun splited =>
      splitLoop token rest (str.dropWhile (· ≠ token)).tail splited (index + 1)

/-- `split`, by its loop: an array with a cell more than there are separators. -/
def splitAt (str : Str) (token : UInt8) : Except Fault (List Str) :=
  if str = [] then .ok []
  else splitLoop token (str.count token) str (List.replicate (str.count token + 1) []) 0

/-- `split(trim(com), ' ', args, num_args)`. -/
def wordsAt (com : Str) : Except Fault (List Str) := (trimAt com).bind fun s => splitAt s (byte ' ')

end Kvstore

namespace Command

/-! ### The chains of comparisons -/

/-- `command_type`. -/
def commandTypeAt (com : Str) : Except Fault ComType :=
  (wordsAt com).bind fun args =>
    if args.length = 0 then .ok .invalid
    else (cellAt .arg args 0).map fun word => (lookup typeTable word args.length).getD .invalid

/-- `execute`: what it does up to the call of a handler, and the result of the handler. -/
def executeAt (com : Str) (auth : UInt8) (currTime : Int) (w : World) :
    Except Fault (Option (Str × World)) :=
  (wordsAt com).bind fun args =>
    if args.length = 0 then .ok (some (invalidCommand, w))
    else (cellAt .arg args 0).bind fun word =>
      if word ∈ controlWords then .ok (some (magic word, w))
      else (if args.length > 1 then (cellAt .arg args 1).map some else .ok none).map fun k =>
        if k.any (notHere w.h) then
          some (lit "hashval " ++ toStr (Hash.hashFunc (k.getD [])), w)
        else match lookup dispatch word args.length with
          | none => some (invalidCommand, w)
          | some handler => handler.run args.tail auth currTime w

end Command

namespace Server

/-! ### The setup messages -/

/-- `com.substr(7)`, the argument of `authority_init`. -/
def authorityInitAt (com : Str) : Except Fault Unit :=
  if 7 ≤ com.length then .ok () else .error .substr

/-- The accesses of `give_replica_info`. -/
def giveReplicaInfoAt (s : Server) (com : Str) : Except Fault Unit :=
  (wordsAt com).bind fun arguments =>
    (cellAt .arg arguments 1).bind fun arg => (cellAt .cell s.replicaCom (atoi arg)).map fun _ => ()

/-- The accesses of `cluster_connect`. -/
def clusterConnectAt (com : Str) (connected : Bool) : Except Fault Unit :=
  (wordsAt com).bind fun temp =>
    (cellAt .arg temp 1).bind fun _ => (cellAt .arg temp 2).bind fun _ =>
      if connected then
        (cellAt .arg temp 3).bind fun _ => (cellAt .arg temp 4).map fun _ => ()
      else .ok ()

/-- The accesses of `hash_reset`. -/
def hashResetAt (com : Str) : Except Fault Unit :=
  (wordsAt com).bind fun temp =>
    (cellAt .arg temp 3).bind fun _ => (cellAt .arg temp 4).map fun _ => ()

/-- The accesses of `set_replica_num`. -/
def setReplicaNumAt (com : Str) : Except Fault Unit :=
  (wordsAt com).bind fun temp =>
    (cellAt .arg temp 1).bind fun arg => if atoi arg - 1 < 0 then .error .length else .ok ()

/-- The accesses of `replica_add`. -/
def replicaAddAt (s : Server) (com : Str) : Except Fault Unit :=
  (wordsAt com).bind fun temp =>
    if (s.repnum : Int) < s.replicaNum - 1 then
      (cellAt .cell s.replicaCom s.repnum).bind fun _ =>
        (cellAt .arg temp 1).bind fun _ => (cellAt .cell s.replicaIp s.repnum).bind fun _ =>
          (cellAt .arg temp 2).bind fun _ => (cellAt .cell s.replicaPort s.repnum).bind fun _ =>
            (cellAt .cell s.replicaSock s.repnum).map fun _ => ()
    else .ok ()

/-- The chain of setup messages, behind the call of `execute` that gave `result`. -/
def controlAt (s : Server) (com : Str) (connected : Bool) (result : Str) : Except Fault Unit :=
  if result = magic (lit "client") then authorityInitAt com
  else if result = magic (lit "give") then s.giveReplicaInfoAt com
  else if result = magic (lit "clust") then clusterConnectAt com connected
  else if result = magic (lit "myinfo") then hashResetAt com
  else if result = magic (lit "replicanumber") then setReplicaNumAt com
  else if result = magic (lit "replica") then s.replicaAddAt com
  else .ok ()

end Server

/-- `scan_and_send`: the first fault of its routines, or else its outcome. -/
def scanAndSendAt (s : Server) (ss : Session) (com : Str) (currTime : Int) (connected : Bool) :
    Except Fault (Option Scan) :=
  (commandTypeAt com).bind fun _ =>
    (executeAt (commandPart com) (toU8 (authority ss com)) currTime s.w).bind fun r =>
      match r with
      | none => .ok none
      | some r => (s.controlAt (commandPart com) connected r.1).map fun _ =>
          route { s with w := r.2 } ss com connected r.1

end MuseKv
