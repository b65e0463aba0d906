import MuseKv.Command.Handlers

/-!
# `command::COMMAND`

The dispatch of `execute` and the classification of `command_type`, each a table of the `else if`
branches in the order of the source.
-/

namespace MuseKv.Command

open Kvstore

/-- The test a branch makes on `num_args`. -/
inductive Arity
  | exactly (n : ℕ)
  | atLeast (n : ℕ)

def Arity.holds (numArgs : ℕ) : Arity → Bool
  | exactly n => numArgs == n
  | atLeast n => n ≤ numArgs

/-- The handlers: those of a command that names a key, and those of the whole table. -/
inductive Handler
  | keyed (f : KeyHandler)
  | keys
  | save
  | read

/-- The last chain of `execute`. -/
def dispatch : List (Str × Arity × Handler) :=
  [(lit "get", .exactly 2, .keyed get),
    (lit "make", .exactly 3, .keyed make),
    (lit "make", .exactly 4, .keyed make),
    (lit "make", .exactly 5, .keyed make),
    (lit "del", .exactly 2, .keyed del),
    (lit "lmake", .atLeast 3, .keyed lmake),
    (lit "lpush", .atLeast 3, .keyed lpush),
    (lit "rpush", .atLeast 3, .keyed rpush),
    (lit "lpop", .exactly 2, .keyed lpop),
    (lit "rpop", .exactly 2, .keyed rpop),
    (lit "lget", .exactly 3, .keyed lget),
    (lit "lset", .exactly 4, .keyed lset),
    (lit "lerase", .exactly 3, .keyed lerase),
    (lit "smake", .atLeast 3, .keyed smake),
    (lit "spush", .atLeast 3, .keyed spush),
    (lit "spop", .exactly 2, .keyed spop),
    (lit "serase", .exactly 3, .keyed serase),
    (lit "sort", .exactly 2, .keyed sort),
    (lit "hmake", .atLeast 4, .keyed hmake),
    (lit "hpush", .exactly 4, .keyed hpush),
    (lit "hget", .exactly 3, .keyed hget),
    (lit "hfields", .exactly 2, .keyed hfields),
    (lit "hvals", .exactly 2, .keyed hvals),
    (lit "herase", .exactly 3, .keyed herase),
    (lit "xkeys", .exactly 1, .keys),
    (lit "keys", .exactly 1, .keys),
    (lit "authr", .exactly 3, .keyed authr),
    (lit "authw", .exactly 3, .keyed authw),
    (lit "expire", .exactly 3, .keyed expire),
    (lit "ttl", .exactly 2, .keyed getTtl),
    (lit "save", .exactly 1, .save),
    (lit "xsave", .exactly 1, .save),
    (lit "read", .exactly 2, .read)]

/-- `comtype`. -/
inductive ComType
  | invalid
  | read
  | write
  deriving DecidableEq, Repr

/-- The chain of `command_type`. -/
def typeTable : List (Str × Arity × ComType) :=
  [(lit "get", .exactly 2, .read),
    (lit "make", .exactly 3, .write),
    (lit "make", .exactly 4, .write),
    (lit "make", .exactly 5, .write),
    (lit "del", .exactly 2, .write),
    (lit "lmake", .atLeast 3, .write),
    (lit "lpush", .atLeast 3, .write),
    (lit "rpush", .atLeast 3, .write),
    (lit "lpop", .exactly 2, .write),
    (lit "rpop", .exactly 2, .write),
    (lit "lget", .exactly 3, .read),
    (lit "lset", .exactly 4, .write),
    (lit "lerase", .exactly 3, .write),
    (lit "smake", .atLeast 3, .write),
    (lit "spush", .atLeast 3, .write),
    (lit "spop", .exactly 2, .write),
    (lit "serase", .exactly 3, .write),
    (lit "sort", .exactly 2, .read),
    (lit "hmake", .atLeast 4, .write),
    (lit "hpush", .exactly 4, .write),
    (lit "hget", .exactly 3, .read),
    (lit "hfields", .exactly 2, .read),
    (lit "hvals", .exactly 2, .read),
    (lit "herase", .exactly 3, .write),
    (lit "keys", .exactly 1, .read),
    (lit "authr", .exactly 3, .write),
    (lit "authw", .exactly 3, .write),
    (lit "expire", .exactly 3, .write),
    (lit "ttl", .exactly 2, .read),
    (lit "save", .exactly 1, .read),
    (lit "read", .exactly 2, .write),
    (lit "exit", .exactly 1, .read)]

/-- The first row for a word and a number of words. -/
def lookup {α : Type} (table : List (Str × Arity × α)) (word : Str) (numArgs : ℕ) : Option α :=
  (table.find? fun row => row.1 = word && row.2.1.holds numArgs).map fun row => row.2.2

/-- `command_type`; its parameter is not used. -/
def commandType (com : Str) : ComType :=
  match words com with
  | [] => .invalid
  | word :: args => (lookup typeTable word (args.length + 1)).getD .invalid

/-- The words that `execute` hands back behind `" \b"`. -/
def controlWords : List Str :=
  [lit "client", lit "give", lit "clust", lit "myinfo", lit "replicanumber", lit "replica",
    lit "replicaaccept"]

/-- `keys`: `find_node` finds each of the keys that the table lists. -/
def keys (h : Hash) (auth : UInt8) : Str :=
  merge (byte ',') (h.keys.filter fun k => (h.findNode k).any fun n => !(auth < n.authr))

/-- What a handler of a command with the arguments `args` does. -/
def Handler.run (args : List Str) (auth : UInt8) (currTime : Int) (w : World) :
    Handler → Option (Str × World)
  | keyed f =>
    let k := args.headD []
    (f ⟨k, args.tail, auth, currTime⟩ (w.h.findNode k)).bind fun r =>
      (w.h.apply k r.2).map fun h => (r.1, { w with h := h })
  | keys => some (Command.keys w.h auth, w)
  | save => w.save.map fun r => (if r.1 then confirmMsg else lit "ERROR : NO FILE", r.2)
  | read => (w.read (args.headD [])).map fun r =>
      (if r.1 then confirmMsg else lit "ERROR : FAIL TO READ FILE", r.2)

/-- Whether `execute` refuses a key: its hash is outside `[start_num, end_num]`. -/
def notHere (h : Hash) (k : Str) : Bool :=
  Hash.hashFunc k < h.startNum || Hash.hashFunc k > h.endNum

/-- `execute` on the words of a command: the reply, and the table and file it leaves, or a fault. -/
def executeWords (ws : List Str) (auth : UInt8) (currTime : Int) (w : World) :
    Option (Str × World) :=
  match ws with
  | [] => some (invalidCommand, w)
  | word :: args =>
    if word ∈ controlWords then some (byte ' ' :: backspace :: word, w)
    else if args.head?.any (notHere w.h) then
      some (lit "hashval " ++ toStr (Hash.hashFunc (args.headD [])), w)
    else match lookup dispatch word (args.length + 1) with
      | none => some (invalidCommand, w)
      | some handler => handler.run args auth currTime w

/-- `execute`. -/
def execute (com : Str) (auth : UInt8) (currTime : Int) (w : World) : Option (Str × World) :=
  executeWords (words com) auth currTime w

/-- One command of a run. -/
structure Request where
  com : Str
  auth : UInt8
  currTime : Int

/-- A run of commands: the replies and what it leaves, unless it faults. -/
def runAll : List Request → World → Option (List Str × World)
  | [], w => some ([], w)
  | r :: rs, w =>
    (execute r.com r.auth r.currTime w).bind fun x =>
      (runAll rs x.2).map fun y => (x.1 :: y.1, y.2)

end MuseKv.Command
