import MuseKv.Hash.Snapshot
import Mathlib.Data.List.Sort

/-!
# The command handlers

Each handler looks its key up, decides from the entry it finds, and then does at most one thing to
the entry: nothing, `del`, `set`, or a change through the node pointer.  So a handler is a function
from the entry to a reply and a `KeyAction`; `none` stands for a fault.

The tests that open the handlers (`live`, `permitted`, `overwritable`, `onList`, …) are named, each
with the replies it gives; they are nested in the order the source writes them.
-/

namespace MuseKv

open Kvstore

/-- What a handler does under its key. -/
inductive KeyAction
  | keep
  | del
  | set (v : Value) (authr authw : UInt8)
  | write (n : Kv)

/-- The effect of a handler on the table.  `none` is a fault of `del`. -/
def Hash.apply (h : Hash) (k : Str) : KeyAction → Option Hash
  | .keep => some h
  | .del => h.del k
  | .set v authr authw => some (h.set k v authr authw)
  | .write n => some (h.alter k fun _ => n)

namespace Command

/-- A command that names a key: `args[1]`, the arguments from `args[2]` on, the authority of the
session, and the time. -/
structure Call where
  k : Str
  args : List Str
  auth : UInt8
  currTime : Int

/-- What a handler returns: its reply and its action, or a fault. -/
abbrev Result := Option (Str × KeyAction)

/-- A handler of a command that names a key. -/
abbrev KeyHandler := Call → Option Kv → Result

def reply (msg : Str) : Result := some (msg, .keep)

/-! ### Replies -/

/-- `CONFIRM_MSG`. -/
def confirmMsg : Str := lit "OK!"

def noSuchKey (k : Str) : Str := lit "ERROR : NO SUCH KEY (" ++ k ++ lit ")"

def notEnoughPermission : Str := lit "ERROR : NOT ENOUGH PERMISSION"

def invalidType : Str := lit "ERROR : INVALID TYPE"

def invalidAuth : Str := lit "ERROR : INVALID AUTH"

def invalidIndex : Str := lit "ERROR : INVALID INDEX"

def invalidTime : Str := lit "ERROR : INVALID TIME"

def invalidCommand : Str := lit "ERROR : INVALID COMMAND"

def emptyList : Str := lit "ERROR : EMPTY LIST"

def emptyHashmap : Str := lit "ERROR : EMPTY HASHMAP"

def noSuchElement (x : Str) : Str := lit "ERROR : NO SUCH ELEMENT (" ++ x ++ lit ")"

def noSuchField (f : Str) : Str := lit "ERROR : NO SUCH FIELD (" ++ f ++ lit ")"

/-! ### The opening tests -/

/-- `if(auth < level) return "ERROR : NOT ENOUGH PERMISSION"`. -/
def permitted (c : Call) (level : UInt8) (body : Result) : Result :=
  if c.auth < level then reply notEnoughPermission else body

/-- The tests for `NULL` and, with a deletion, for expiry. -/
def live (c : Call) (node : Option Kv) (body : Kv → Result) : Result :=
  match node with
  | none => reply (noSuchKey c.k)
  | some n => if n.isExpired c.currTime then some (noSuchKey c.k, .del) else body n

/-- The test for `NULL` alone. -/
def present (c : Call) (node : Option Kv) (body : Kv → Result) : Result :=
  match node with
  | none => reply (noSuchKey c.k)
  | some n => body n

/-- The test before an entry is created or replaced. -/
def overwritable (c : Call) (node : Option Kv) (body : Result) : Result :=
  match node with
  | none => body
  | some n => permitted c n.authw body

section

variable {c : Call} {node : Option Kv} {n : Kv}

theorem permitted_of_le {level : UInt8} (h : level ≤ c.auth) (body : Result) :
    permitted c level body = body := if_neg (UInt8.not_lt.mpr h)

theorem live_of_expired (h : n.isExpired c.currTime = true) (body : Kv → Result) :
    live c (some n) body = some (noSuchKey c.k, .del) := if_pos h

theorem live_of_not_expired (h : n.isExpired c.currTime = false) (body : Kv → Result) :
    live c (some n) body = body n := if_neg (by rw [h]; exact Bool.false_ne_true)

theorem overwritable_of_le (h : ∀ n, node = some n → n.authw ≤ c.auth) (body : Result) :
    overwritable c node body = body := by
  cases node with
  | none => rfl
  | some n => exact permitted_of_le (h n rfl) body

end

/-- A live entry of type `List` whose level allows the call. -/
def onList (c : Call) (level : Kv → UInt8) (node : Option Kv) (body : Kv → List Str → Result) :
    Result :=
  live c node fun n =>
    match n.v with
    | .list l => permitted c (level n) (body n l)
    | _ => reply invalidType

/-- A live entry of type `Set` whose level allows the call. -/
def onSet (c : Call) (level : Kv → UInt8) (node : Option Kv) (body : Kv → Hashset → Result) :
    Result :=
  live c node fun n =>
    match n.v with
    | .set s => permitted c (level n) (body n s)
    | _ => reply invalidType

/-- A live entry of type `Hashmap` whose level allows the call. -/
def onHashmap (c : Call) (level : Kv → UInt8) (node : Option Kv) (body : Kv → Hashmap → Result) :
    Result :=
  live c node fun n =>
    match n.v with
    | .hashmap m => permitted c (level n) (body n m)
    | _ => reply invalidType

/-- The argument `args[i + 2]`; the dispatch has counted the arguments. -/
def Call.arg (c : Call) (i : ℕ) : Str := c.args.getD i []

/-- An argument that `strtoint` must accept. -/
def withInt (str bad : Str) (body : Int → Result) : Result :=
  match strtoint str with
  | none => none
  | some (false, _) => reply bad
  | some (true, x) => body x

/-- The tests `auth < temp.second` of the handlers that take a level. -/
def withinAuth (c : Call) (x : Int) (body : Result) : Result :=
  if (c.auth.toNat : Int) < x then reply notEnoughPermission else body

/-! ### Any type -/

def get (c : Call) (node : Option Kv) : Result :=
  live c node fun n =>
    permitted c n.authr <| n.v.dataDecode.map fun data => (data, .keep)

/-- `make`, with its `switch(num_args)`. -/
def make (c : Call) (node : Option Kv) : Result :=
  overwritable c node <|
    match c.args with
    | [data] => some (confirmMsg, .set (.string data) 0 c.auth)
    | [data, arg3] =>
      withInt arg3 invalidAuth fun temp =>
        if temp < 0 then reply invalidAuth
        else withinAuth c temp <| some (confirmMsg, .set (.string data) (toU8 temp) c.auth)
    | [data, arg3, arg4] =>
      -- both arguments are converted before either is tested
      match strtoint arg3, strtoint arg4 with
      | some (b1, temp1), some (b2, temp2) =>
        if !b1 || temp1 < 0 then reply invalidAuth
        else if !b2 || temp2 < 0 then reply invalidAuth
        else withinAuth c temp1 <| withinAuth c temp2 <|
          if temp1 > temp2 then reply invalidAuth
          else some (confirmMsg, .set (.string data) (toU8 temp1) (toU8 temp2))
      | _, _ => none
    | _ => none

def del (c : Call) (node : Option Kv) : Result :=
  present c node fun n => permitted c n.authw <| some (confirmMsg, .del)

/-- `authr` and `authw`, which differ in the mutator they call. -/
def setLevel (mutator : Kv → UInt8 → Kv) (c : Call) (node : Option Kv) : Result :=
  present c node fun n =>
    withInt (c.arg 0) invalidAuth fun temp =>
      if temp < 0 then reply invalidAuth
      else withinAuth c temp <| permitted c n.authw <|
        some (confirmMsg, .write (mutator n (toU8 temp)))

def authr : KeyHandler := setLevel Kv.setAuthr

def authw : KeyHandler := setLevel Kv.setAuthw

/-- `expire`: the argument is read before the key is looked up. -/
def expire (c : Call) (node : Option Kv) : Result :=
  withInt (c.arg 0) invalidTime fun timeEx =>
    live c node fun n =>
      permitted c n.authw <| some (confirmMsg, .write (n.setTtl timeEx c.currTime))

def getTtl (c : Call) (node : Option Kv) : Result :=
  live c node fun n =>
    permitted c n.authr <| some (toStr (n.getTtl c.currTime).1, .write (n.getTtl c.currTime).2)

/-! ### Lists -/

/-- `args[2]` and the following arguments, joined by commas. -/
def Call.joined (c : Call) : Str := joinArgs (c.arg 0) c.args.tail

def lmake (c : Call) (node : Option Kv) : Result :=
  overwritable c node <|
    (Value.dataEncode c.joined .list).map fun v => (toStr c.args.length, .set v 0 c.auth)

def lpush (c : Call) (node : Option Kv) : Result :=
  onList c Kv.authw node fun n l =>
    some (confirmMsg, .write (n.setV (.list (c.args.foldl Linkedlist.pushFront l))))

def rpush (c : Call) (node : Option Kv) : Result :=
  onList c Kv.authw node fun n l =>
    some (confirmMsg, .write (n.setV (.list (c.args.foldl Linkedlist.pushBack l))))

/-- `lpop` and `rpop`. -/
def popList (pop : List Str → Str × List Str) (c : Call) (node : Option Kv) : Result :=
  onList c Kv.authw node fun n l =>
    if l = [] then reply emptyList else some ((pop l).1, .write (n.setV (.list (pop l).2)))

def lpop : KeyHandler := popList Linkedlist.popFront

def rpop : KeyHandler := popList Linkedlist.popBack

def lget (c : Call) (node : Option Kv) : Result :=
  onList c Kv.authr node fun _ l =>
    if l = [] then reply emptyList
    else withInt (c.arg 0) invalidIndex fun index =>
      (Linkedlist.get l index).map fun content => (content, .keep)

def lset (c : Call) (node : Option Kv) : Result :=
  onList c Kv.authw node fun n l =>
    if l = [] then reply emptyList
    else withInt (c.arg 0) invalidIndex fun index =>
      (Linkedlist.set l index (c.arg 1)).map fun l => (confirmMsg, .write (n.setV (.list l)))

def lerase (c : Call) (node : Option Kv) : Result :=
  onList c Kv.authw node fun n l =>
    if l = [] then reply emptyList
    else withInt (c.arg 0) invalidIndex fun index =>
      some (confirmMsg, .write (n.setV (.list (Linkedlist.del l index).2)))

/-! ### Sets -/

/-- `smake`: the reply is the length of the set it built. -/
def smake (c : Call) (node : Option Kv) : Result :=
  overwritable c node <|
    (Value.splitData c.joined).map fun data =>
      let s := data.foldl Hashset.push Hashset.empty
      (toStr s.getLength, .set (.set s) 0 c.auth)

def spush (c : Call) (node : Option Kv) : Result :=
  onSet c Kv.authw node fun n s =>
    some (confirmMsg, .write (n.setV (.set (c.args.foldl Hashset.push s))))

def spop (c : Call) (node : Option Kv) : Result :=
  onSet c Kv.authw node fun n s =>
    if s.isEmpty then reply emptyList else some (s.pop.1, .write (n.setV (.set s.pop.2)))

def serase (c : Call) (node : Option Kv) : Result :=
  onSet c Kv.authw node fun n s =>
    if s.isEmpty then reply emptyList
    else some (if (s.del (c.arg 0)).1 then confirmMsg else noSuchElement (c.arg 0),
      .write (n.setV (.set (s.del (c.arg 0)).2)))

/-- The text `sort` makes of a print: `delete[]` on the unset pointer is a fault when nothing was
printed.  A print may have more pieces than an `int` counts. -/
def sortPrint (str : Str) : Option Str :=
  if str = [] then none
  else (splitArray str (byte ',')).map fun splited =>
    merge (byte ',') (splited.insertionSort (· ≤ ·))

def sort (c : Call) (node : Option Kv) : Result :=
  live c node fun n =>
    match n.v with
    | .list l => permitted c n.authr <| (sortPrint (Linkedlist.print l)).map fun s => (s, .keep)
    | .set s => permitted c n.authr <| (sortPrint s.print).map fun s => (s, .keep)
    | _ => reply invalidType

/-! ### Field/value maps -/

/-- `hmake`: an odd number of words is refused before the key is looked up. -/
def hmake (c : Call) (node : Option Kv) : Result :=
  if (c.args.length + 2) % 2 ≠ 0 then reply invalidCommand
  else overwritable c node <|
    (Value.dataEncode c.joined .hashmap).map fun v => (confirmMsg, .set v 0 c.auth)

def hpush (c : Call) (node : Option Kv) : Result :=
  onHashmap c Kv.authw node fun n m =>
    some (confirmMsg, .write (n.setV (.hashmap (m.setFv (c.arg 0) (c.arg 1)))))

def hget (c : Call) (node : Option Kv) : Result :=
  onHashmap c Kv.authr node fun _ m =>
    if m.isEmpty then reply emptyHashmap
    else if m.getV (c.arg 0) = lit "NULL" then reply (noSuchField (c.arg 0))
    else reply (m.getV (c.arg 0))

/-- `hfields` and `hvals`. -/
def listing (text : Hashmap → Str) (c : Call) (node : Option Kv) : Result :=
  onHashmap c Kv.authr node fun _ m =>
    if m.isEmpty then reply emptyHashmap else reply (text m)

def hfields : KeyHandler := listing Hashmap.fields

def hvals : KeyHandler := listing Hashmap.values

def herase (c : Call) (node : Option Kv) : Result :=
  onHashmap c Kv.authw node fun n m =>
    if m.isEmpty then reply emptyHashmap
    else match m.findHashmapNode (c.arg 0) with
      | none => reply (noSuchField (c.arg 0))
      | some _ => (m.delFv (c.arg 0)).map fun m => (confirmMsg, .write (n.setV (.hashmap m)))

end Command

end MuseKv
