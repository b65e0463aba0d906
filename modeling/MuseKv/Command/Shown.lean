import MuseKv.Command.Basic

/-!
# What a reply shows

Most replies are fixed texts and numbers.  `shown` says which of them carry more, and what: the name
of a key, an element or a field inside a message, or a text from the table, which is then the whole
reply.  It follows the tests of each command, and leaves out what the command does.

A reply is **marked** if a server that reads it takes it for something else: it contains `hashval`,
or it is `" \b"` with a control word behind it.
-/

namespace MuseKv.Command

open Kvstore

/-- What a reply shows: a name inside a message, or a text. -/
inductive Shown
  | name (x : Str)
  | text (x : Str)

/-- The text `" \b"` with a control word behind it. -/
def magic (word : Str) : Str := byte ' ' :: backspace :: word

/-- The replies that `scan_and_send` gives a meaning of their own. -/
def Marked (msg : Str) : Prop :=
  lit "hashval" <:+: msg ∨ ∃ word ∈ controlWords, msg = magic word

/-- A name stands between other characters, so only the word `hashval` is recognised in it. -/
def Shown.Marked : Shown → Prop
  | name x => lit "hashval" <:+: x
  | text x => Command.Marked x

/-- What a command shows of its key, its arguments and the entry it finds. -/
abbrev Quote := Call → Option Kv → Option Shown

namespace Quote

/-! ### The opening tests -/

def permitted (c : Call) (level : UInt8) (body : Option Shown) : Option Shown :=
  if c.auth < level then none else body

def live (c : Call) (node : Option Kv) (body : Kv → Option Shown) : Option Shown :=
  match node with
  | none => some (.name c.k)
  | some n => if n.isExpired c.currTime then some (.name c.k) else body n

def present (c : Call) (node : Option Kv) : Option Shown :=
  match node with
  | none => some (.name c.k)
  | some _ => none

def onList (c : Call) (level : Kv → UInt8) (node : Option Kv) (body : List Str → Option Shown) :
    Option Shown :=
  live c node fun n =>
    match n.v with
    | .list l => permitted c (level n) (body l)
    | _ => none

def onSet (c : Call) (level : Kv → UInt8) (node : Option Kv) (body : Hashset → Option Shown) :
    Option Shown :=
  live c node fun n =>
    match n.v with
    | .set s => permitted c (level n) (body s)
    | _ => none

def onHashmap (c : Call) (level : Kv → UInt8) (node : Option Kv) (body : Hashmap → Option Shown) :
    Option Shown :=
  live c node fun n =>
    match n.v with
    | .hashmap m => permitted c (level n) (body m)
    | _ => none

def withInt (str : Str) (body : Int → Option Shown) : Option Shown :=
  match strtoint str with
  | some (true, x) => body x
  | _ => none

/-! ### The commands -/

/-- A command that names its key when there is no live entry, and else nothing. -/
def alive : Quote := fun c node => live c node fun _ => none

def get : Quote := fun c node =>
  live c node fun n => permitted c n.authr (n.v.dataDecode.map .text)

def expire : Quote := fun c node => withInt (c.arg 0) fun _ => alive c node

def popList (pop : List Str → Str × List Str) : Quote := fun c node =>
  onList c Kv.authw node fun l => if l = [] then none else some (.text (pop l).1)

def lget : Quote := fun c node =>
  onList c Kv.authr node fun l =>
    if l = [] then none else withInt (c.arg 0) fun i => (Linkedlist.get l i).map .text

def spop : Quote := fun c node =>
  onSet c Kv.authw node fun s => if s.isEmpty then none else some (.text s.pop.1)

def serase : Quote := fun c node =>
  onSet c Kv.authw node fun s =>
    if s.isEmpty || (s.del (c.arg 0)).1 then none else some (.name (c.arg 0))

def sort : Quote := fun c node =>
  live c node fun n =>
    match n.v with
    | .list l => permitted c n.authr ((sortPrint (Linkedlist.print l)).map .text)
    | .set s => permitted c n.authr ((sortPrint s.print).map .text)
    | _ => none

def hget : Quote := fun c node =>
  onHashmap c Kv.authr node fun m =>
    if m.isEmpty then none
    else if m.getV (c.arg 0) = lit "NULL" then some (.name (c.arg 0))
    else some (.text (m.getV (c.arg 0)))

def listing (text : Hashmap → Str) : Quote := fun c node =>
  onHashmap c Kv.authr node fun m => if m.isEmpty then none else some (.text (text m))

def herase : Quote := fun c node =>
  onHashmap c Kv.authw node fun m =>
    if m.isEmpty then none
    else if m.findHashmapNode (c.arg 0) = none then some (.name (c.arg 0)) else none

end Quote

/-- What the commands that name a key show; a command that is not listed shows nothing. -/
def quotes : List (Str × Quote) :=
  [(lit "get", Quote.get),
    (lit "del", fun c node => Quote.present c node),
    (lit "lpush", Quote.alive),
    (lit "rpush", Quote.alive),
    (lit "lpop", Quote.popList Linkedlist.popFront),
    (lit "rpop", Quote.popList Linkedlist.popBack),
    (lit "lget", Quote.lget),
    (lit "lset", Quote.alive),
    (lit "lerase", Quote.alive),
    (lit "spush", Quote.alive),
    (lit "spop", Quote.spop),
    (lit "serase", Quote.serase),
    (lit "sort", Quote.sort),
    (lit "hpush", Quote.alive),
    (lit "hget", Quote.hget),
    (lit "hfields", Quote.listing Hashmap.fields),
    (lit "hvals", Quote.listing Hashmap.values),
    (lit "herase", Quote.herase),
    (lit "authr", Quote.present),
    (lit "authw", Quote.present),
    (lit "expire", Quote.expire),
    (lit "ttl", Quote.alive)]

/-- Whether the words of a command name a key that the table refuses. -/
def refused (h : Hash) (ws : List Str) : Bool := ws.tail.head?.any (notHere h)

/-- What the reply to the words of a command shows. -/
def shown (ws : List Str) (auth : UInt8) (currTime : Int) (h : Hash) : Option Shown :=
  match ws with
  | [] => none
  | word :: args =>
    (lookup dispatch word (args.length + 1)).bind fun
      | .keyed _ => (quotes.lookup word).bind fun quote =>
          quote ⟨args.headD [], args.tail, auth, currTime⟩ (h.findNode (args.headD []))
      | .keys => some (.text (keys h auth))
      | _ => none

end MuseKv.Command
