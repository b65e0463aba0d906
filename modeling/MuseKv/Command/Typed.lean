import MuseKv.Command.Locality
import MuseKv.General.Draws
import MuseKv.Value.Hashset
import MuseKv.Value.Hashmap

/-!
# Keys of one type

A `KeyType` says which commands work on the values of a type, and what they do to them.  `setType` is that
of `spush`, `spop` and `serase`, and `mapType` that of `hpush`, `hget` and `herase`; `mapStep` is what the
latter are for, on a finite map.
-/

namespace MuseKv.Command

open General Kvstore

/-- The commands on one type of values: the values, the operation that the words of a command ask for, the
level of an entry that it takes, and what it replies and leaves. -/
structure KeyType (S O : Type) where
  value : S → Value
  op : List Str → Option O
  level : O → Kv → UInt8
  step : O → S → Str × S

namespace KeyType

variable {S O : Type}

/-- Operations one after another. -/
def run (T : KeyType S O) : List O → S → List Str × S
  | [], s => ([], s)
  | o :: os, s => ((T.step o s).1 :: (T.run os (T.step o s).2).1, (T.run os (T.step o s).2).2)

/-- The operations of a run under a key. -/
def ops (T : KeyType S O) (k : Str) (rs : List Request) : List O :=
  (naming k rs).filterMap fun r => T.op (words r.com)

/-- A command of the type, which a live entry allows. -/
def Allows (T : KeyType S O) (n : Kv) (r : Request) : Prop :=
  ∃ o, T.op (words r.com) = some o ∧ T.level o n ≤ r.auth ∧ n.isExpired r.currTime = false

end KeyType

/-! ### Sets -/

def setOp : List Str → Option (Draws.Op Str)
  | [word, _] => if word = lit "spop" then some .draw else none
  | [word, _, x] =>
    if word = lit "spush" then some (.add [x])
    else if word = lit "serase" then some (.remove x)
    else none
  | word :: _ :: args => if word = lit "spush" then some (.add args) else none
  | _ => none

/-- The reply to an operation on a set. -/
def setReply : Draws.Op Str → Draws.Result Str → Str
  | _, .done => confirmMsg
  | _, .element x => x
  | .remove x, .missing => noSuchElement x
  | _, _ => emptyList

/-- What a set returns. -/
def setResult : Draws.Op Str → Hashset → Draws.Result Str
  | .add _, _ => .done
  | .draw, s => if s.isEmpty then .empty else .element s.pop.1
  | .remove x, s => if s.isEmpty then .empty else if (s.del x).1 then .done else .missing

/-- What it leaves. -/
def setRest : Draws.Op Str → Hashset → Hashset
  | .add xs, s => xs.foldl Hashset.push s
  | .draw, s => if s.isEmpty then s else s.pop.2
  | .remove x, s => if s.isEmpty then s else (s.del x).2

def setType : KeyType Hashset (Draws.Op Str) where
  value := .set
  op := setOp
  level _ := Kv.authw
  step o s := (setReply o (setResult o s), setRest o s)

/-! ### Maps -/

/-- An operation on a map. -/
inductive MapKeyOp
  | push (f v : Str)
  | get (f : Str)
  | erase (f : Str)

def mapOp : List Str → Option MapKeyOp
  | [word, _, f] =>
    if word = lit "hget" then some (.get f)
    else if word = lit "herase" then some (.erase f)
    else none
  | [word, _, f, v] => if word = lit "hpush" then some (.push f v) else none
  | _ => none

def mapType : KeyType Hashmap MapKeyOp where
  value := .hashmap
  op := mapOp
  level
    | .get _ => Kv.authr
    | _ => Kv.authw
  step
    | .push f v, m => (confirmMsg, m.setFv f v)
    | .get f, m =>
      (if m.isEmpty then emptyHashmap
        else if m.getV f = lit "NULL" then noSuchField f else m.getV f, m)
    | .erase f, m =>
      if m.isEmpty then (emptyHashmap, m)
      else match m.delFv f with
        | none => (noSuchField f, m)
        | some m' => (confirmMsg, m')

open Classical in
/-- The operations on a finite map, as a function from fields: the reply, and what is left.  A map without
fields has a reply of its own, and `hget` takes the text `NULL` for an absent value. -/
noncomputable def mapStep : MapKeyOp → (Str → Option Str) → Str × (Str → Option Str)
  | .push f v, M => (confirmMsg, Function.update M f (some v))
  | .get f, M =>
    (if M = fun _ => none then emptyHashmap
      else if (M f).getD (lit "NULL") = lit "NULL" then noSuchField f
      else (M f).getD (lit "NULL"), M)
  | .erase f, M =>
    (if M = fun _ => none then emptyHashmap
      else if M f = none then noSuchField f else confirmMsg, Function.update M f none)

/-- Operations on a finite map one after another. -/
noncomputable def mapRun : List MapKeyOp → (Str → Option Str) → List Str × (Str → Option Str)
  | [], M => ([], M)
  | o :: os, M => ((mapStep o M).1 :: (mapRun os (mapStep o M).2).1, (mapRun os (mapStep o M).2).2)

end MuseKv.Command
