import MuseKv.Command.Replay

/-!
# Commands about one key

A command that is neither a control word nor about the whole table looks at one entry, and changes at
most that one.  `keyEffect` is what it makes of the entry.
-/

namespace MuseKv

open Kvstore

/-- The entry an action leaves under its key, unless it faults. -/
def KeyAction.perform : KeyAction → Option Kv → Option (Option Kv)
  | keep, node => some node
  | del, node => node.bind fun n => if n.v.isUnset then none else some none
  | set v r w, node => some (some (Hash.setEntry v r w node))
  | write n, node => some (node.map fun _ => n)

namespace Command

/-- Words that are neither a control word nor a command about the whole table. -/
def Ordinary (ws : List Str) : Prop :=
  ∀ word args, ws = word :: args → word ∉ controlWords ∧
    ∀ handler, lookup dispatch word (args.length + 1) = some handler → ∃ f, handler = .keyed f

/-- What the words of a command make of the entry of the key they name: the reply, and the entry that
is left. -/
def keyEffect (ws : List Str) (auth : UInt8) (t : Int) (node : Option Kv) :
    Option (Str × Option Kv) :=
  (keyResult ws auth t node).bind fun r => (r.2.perform node).map fun node' => (r.1, node')

/-- Behind a command about one key, the rest of the table, its bounds and the file are as before. -/
structure OnlyKey (k : Str) (w w' : World) : Prop where
  others : ∀ k', k' ≠ k → w'.h.findNode k' = w.h.findNode k'
  portNum : w'.h.portNum = w.h.portNum
  startNum : w'.h.startNum = w.h.startNum
  endNum : w'.h.endNum = w.h.endNum
  file : w'.csv = w.csv ∧ w'.writable = w.writable

/-- The commands of a run that name a key. -/
def naming (k : Str) (rs : List Request) : List Request :=
  rs.filter fun r => keyOf (words r.com) = k

/-- The replies of a run to them. -/
def answersTo (k : Str) : List Request → List Str → List Str
  | r :: rs, msg :: replies =>
    if keyOf (words r.com) = k then msg :: answersTo k rs replies else answersTo k rs replies
  | _, _ => []

end Command

end MuseKv
