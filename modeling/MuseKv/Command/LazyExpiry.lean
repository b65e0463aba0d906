import MuseKv.Command.Basic
import MuseKv.Hash.Load

/-!
# Lazy expiry

An entry that is expired stays in the table until a command collects it.  `Invisible` says that this
does not show: a command does the same to a table and to the table without its expired entries.
`Unaffected` collects, handler by handler, when that is so.
-/

namespace MuseKv

open General Kvstore

/-- The table without the entries that are expired at `t`. -/
def Hash.purge (h : Hash) (t : Int) : Hash :=
  { h with
    h := Buckets.filter (fun e => !e.2.isExpired t) h.h
    wf := h.wf.filter _ }

def World.purge (w : World) (t : Int) : World := { w with h := w.h.purge t }

namespace Command

/-- The same reply, the same tables but for their expired entries, and the same file. -/
def SameLive (t : Int) (x y : Str × World) : Prop :=
  x.1 = y.1 ∧ x.2.h.purge t = y.2.h.purge t ∧ x.2.csv = y.2.csv

/-- The expired entries do not show in the execution of a command. -/
def Invisible (com : Str) (auth : UInt8) (t : Int) (w : World) : Prop :=
  Option.Rel (SameLive t) (execute com auth t w) (execute com auth t (w.purge t))

/-! ### What a handler makes of an expired entry -/

/-- The levels that `make` refuses, with the reply. -/
def levelRefusal (c : Call) : Option Str :=
  match c.args with
  | [_, arg3] =>
    match strtoint arg3 with
    | some (true, x) =>
      if x < 0 then some invalidAuth
      else if (c.auth.toNat : Int) < x then some notEnoughPermission
      else none
    | _ => some invalidAuth
  | [_, arg3, arg4] =>
    match strtoint arg3, strtoint arg4 with
    | some (true, x), some (true, y) =>
      if x < 0 ∨ y < 0 then some invalidAuth
      else if (c.auth.toNat : Int) < x ∨ (c.auth.toNat : Int) < y then some notEnoughPermission
      else if x > y then some invalidAuth
      else none
    | _, _ => some invalidAuth
  | _ => none

/-- When an expired entry does not show. -/
abbrev Test := Call → Kv → Prop

/-- It is removed, as long as there is a value to delete. -/
def collects : Test := fun _ n => n.v.isUnset = false

/-- It is never tested for its expiry. -/
def never : Test := fun _ _ => False

/-- The arguments are refused, and the entry gives no other reply. -/
def refuses : Test := fun c n =>
  ∃ msg, levelRefusal c = some msg ∧ (n.authw ≤ c.auth ∨ msg = notEnoughPermission)

/-- The handlers that name a key. -/
def tests : List (Str × Test) :=
  [(lit "get", collects),
    (lit "make", refuses),
    (lit "del", never),
    (lit "lmake", never),
    (lit "lpush", collects),
    (lit "rpush", collects),
    (lit "lpop", collects),
    (lit "rpop", collects),
    (lit "lget", collects),
    (lit "lset", collects),
    (lit "lerase", collects),
    (lit "smake", never),
    (lit "spush", collects),
    (lit "spop", collects),
    (lit "serase", collects),
    (lit "sort", collects),
    (lit "hmake", fun c _ => c.args.length % 2 = 1),
    (lit "hpush", collects),
    (lit "hget", collects),
    (lit "hfields", collects),
    (lit "hvals", collects),
    (lit "herase", collects),
    (lit "authr", never),
    (lit "authw", never),
    (lit "expire", fun c n => (∀ x, strtoint (c.arg 0) ≠ some (true, x)) ∨ collects c n),
    (lit "ttl", collects)]

/-- The keys that `keys` lists. -/
def visible (h : Hash) (auth : UInt8) : List Str :=
  h.keys.filter fun k => (h.findNode k).any fun n => !(auth < n.authr)

/-- No expired entry shows in what a handler does. -/
def Handler.Unaffected (word : Str) (args : List Str) (auth : UInt8) (t : Int) (w : World) :
    Handler → Prop
  | keyed _ => ∀ n, w.h.findNode (args.headD []) = some n → n.isExpired t = true →
      ∃ test, tests.lookup word = some test ∧ test ⟨args.headD [], args.tail, auth, t⟩ n
  | keys => (∀ k n, w.h.findNode k = some n → n.isExpired t = true → auth < n.authr) ∨
      visible w.h auth = [[]]
  | save => w.writable = false ∨ (∀ k n, w.h.findNode k = some n → n.isExpired t = false) ∨
      ∃ k n, w.h.findNode k = some n ∧ n.isExpired t = false ∧ ¬ Hash.Printable (k, n)
  | read => ∀ b rs, Hash.Reads w.csv (args.headD []) b rs →
      ∀ r ∈ rs, ∀ n, w.h.findNode r.1 = some n → n.isExpired t = false

/-- No expired entry shows in what a command does; a control word and a key that is not here are
answered without a look at the entries. -/
def Unaffected (com : Str) (auth : UInt8) (t : Int) (w : World) : Prop :=
  match words com with
  | [] => True
  | word :: args =>
    word ∈ controlWords ∨ args.head?.any (notHere w.h) = true ∨
      ∀ handler, lookup dispatch word (args.length + 1) = some handler →
        handler.Unaffected word args auth t w

end Command

end MuseKv
