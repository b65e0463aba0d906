import MuseKv.General.LastValue
import MuseKv.Hash.Load
import MuseKv.Command.Equiv.RoundTrip

/-!
# What was stored in the maps

`hmake` stores pairs under its key, `hpush` one pair, and a snapshot that is read the pairs of the maps
of its records.  `Reached` goes with a run of commands and keeps the list of all pairs that were stored,
each with its key, in their order.
-/

namespace MuseKv

open General Kvstore Command

/-- The value of a field, in a value of type `Hashmap`. -/
def Value.field : Value → Str → Option Str
  | hashmap m, f => m.lookup f
  | _, _ => none

/-- The pairs of a value of type `Hashmap`, oldest first. -/
def Value.pairs : Value → List (Str × Str)
  | hashmap m => m.nodes.reverse
  | _ => []

/-- The value of a field, in the value of an entry. -/
def fieldAt (node : Option Kv) (f : Str) : Option Str := node.bind fun n => n.v.field f

namespace Command

/-- The pieces between the commas of some arguments. -/
def pieces (args : List Str) : List Str := args.flatMap fun x => x.splitOn (byte ',')

/-- The pairs `f1 v1 .. fm vm`; a last word without a partner is left out. -/
def pairsOf : List Str → List (Str × Str)
  | f :: v :: rest => (f, v) :: pairsOf rest
  | _ => []

/-- The pairs that `hmake` and `hpush` store when they succeed. -/
def storedPairs (word : Str) (args : List Str) (msg : Str) : List (Str × Str) :=
  if msg ≠ confirmMsg then []
  else if word = lit "hmake" then pairsOf (pieces args)
  else if word = lit "hpush" then pairsOf args
  else []

/-- What was stored, in its order: key, field, value. -/
abbrev StoreLog := List ((Str × Str) × Str)

def underKey (k : Str) (pairs : List (Str × Str)) : StoreLog := pairs.map fun p => ((k, p.1), p.2)

/-- The pairs that a command stores, with their key. -/
def storedBy (ws : List Str) (msg : Str) : StoreLog :=
  match ws with
  | word :: k :: args => underKey k (storedPairs word args msg)
  | _ => []

/-- The pairs that the records of a snapshot store. -/
def storedByRecords (rs : List Hash.Record) : StoreLog := rs.flatMap fun r => underKey r.1 r.2.1.pairs

/-- The stores that are reached from empty ones, with all that was stored in their maps. -/
inductive Reached : World → StoreLog → Prop
  | fresh (port : Int) : Reached (World.fresh port) []
  | command {w w' : World} {log : StoreLog} {com msg : Str} {a : UInt8} {t : Int} (hw : Reached w log)
      (hread : ∀ pw, words com = [lit "read", pw] → notHere w.h pw = true)
      (h : execute com a t w = some (msg, w')) : Reached w' (log ++ storedBy (words com) msg)
  | read {w w' : World} {log : StoreLog} {com msg pw : Str} {a : UInt8} {t : Int} {b : Bool}
      {rs : List Hash.Record} (hw : Reached w log) (hread : words com = [lit "read", pw])
      (hhere : notHere w.h pw = false) (hrs : Hash.Reads w.csv pw b rs)
      (h : execute com a t w = some (msg, w')) : Reached w' (log ++ storedByRecords rs)

end Command

end MuseKv
