import MuseKv.Command.Shown

/-!
# A command that is executed again

A write is executed where a client sends it, and then once more at every replica, with the authority
`0` of a connection that asked for none.  These are the notions that compare the two executions.
-/

namespace MuseKv

open Kvstore

/-- An entry that every authority may use at any time: no levels, and no lifetime. -/
structure Kv.Unguarded (n : Kv) : Prop where
  authr : n.authr = 0
  authw : n.authw = 0
  ttl : n.ttl = -1
  finished : n.finished = false

namespace Command

/-- The commands of type `Write`, without `expire` and `read`. -/
def writeWords : List Str :=
  [lit "make", lit "del", lit "lmake", lit "lpush", lit "rpush", lit "lpop", lit "rpop", lit "lset",
    lit "lerase", lit "smake", lit "spush", lit "spop", lit "serase", lit "hmake", lit "hpush",
    lit "herase", lit "authr", lit "authw"]

/-- A text of type `Write` whose command is neither `expire` nor `read`. -/
def PlainWrite (com : Str) : Prop :=
  commandType com = .write ∧
    ∀ word ∈ (words com).head?, word ≠ lit "expire" ∧ word ≠ lit "read"

/-- The key that the words of a command name. -/
def keyOf (ws : List Str) : Str := ws.getD 1 []

/-- What the words of a command do to the entry of the key they name. -/
def keyResult (ws : List Str) (auth : UInt8) (currTime : Int) (node : Option Kv) : Result :=
  match ws with
  | word :: k :: args =>
    match lookup dispatch word (args.length + 2) with
    | some (.keyed f) => f ⟨k, args, auth, currTime⟩ node
    | _ => reply invalidCommand
  | _ => reply invalidCommand

/-- The commands that give an entry a level of the authority they run with: they ask for levels that
the authority allows, or give none. -/
inductive TakesLevel (auth : UInt8) (node : Option Kv) : List Str → Prop
  | make {k data : Str} : TakesLevel auth node [lit "make", k, data]
  | makeAuthr {k data arg3 : Str} {r : Int} (hr : strtoint arg3 = some (true, r)) (h₀ : 0 ≤ r)
      (h₁ : r ≤ auth.toNat) : TakesLevel auth node [lit "make", k, data, arg3]
  | makeLevels {k data arg3 arg4 : Str} {r w : Int} (hr : strtoint arg3 = some (true, r))
      (hw : strtoint arg4 = some (true, w)) (h₀ : 0 ≤ r) (h₁ : r ≤ w) (h₂ : 0 < w)
      (h₃ : w ≤ auth.toNat) : TakesLevel auth node [lit "make", k, data, arg3, arg4]
  | lmake {k : Str} {args : List Str} (h : args ≠ []) :
      TakesLevel auth node (lit "lmake" :: k :: args)
  | smake {k : Str} {args : List Str} (h : args ≠ []) :
      TakesLevel auth node (lit "smake" :: k :: args)
  | hmake {k : Str} {args : List Str} (h : args ≠ []) (heven : args.length % 2 = 0) :
      TakesLevel auth node (lit "hmake" :: k :: args)
  | setLevel {word k arg : Str} {args : List Str} {n : Kv} {x : Int}
      (hword : word = lit "authr" ∨ word = lit "authw") (hnode : node = some n)
      (hx : strtoint arg = some (true, x)) (h₀ : 0 < x) (h₁ : x ≤ auth.toNat) :
      TakesLevel auth node (word :: k :: arg :: args)

/-- A command that gives its key a level above `0`. -/
def Raises (ws : List Str) (auth : UInt8) (node : Option Kv) : Prop :=
  0 < auth ∧ TakesLevel auth node ws

end Command

end MuseKv
