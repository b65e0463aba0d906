import MuseKv.Command.Typed
import MuseKv.General.Deque

/-!
# Lists as queues

`lpush`, `rpush`, `lpop` and `rpop` are operations on a double-ended queue, with a text for what each
takes out.
-/

namespace MuseKv.Command

open General Kvstore

/-- The operation that the words of a command ask for, if they are a push or a pop. -/
def dequeOp : List Str → Option (Deque.Op Str)
  | [word, _] =>
    if word = lit "lpop" then some .popFront
    else if word = lit "rpop" then some .popBack
    else none
  | word :: _ :: args =>
    if word = lit "lpush" then some (.pushFront args)
    else if word = lit "rpush" then some (.pushBack args)
    else none
  | _ => none

/-- The reply to an operation that takes out an element, or none. -/
def dequeReply : Deque.Op Str → Option Str → Str
  | .pushFront _, _ => confirmMsg
  | .pushBack _, _ => confirmMsg
  | _, some x => x
  | _, none => emptyList

/-- The type of the lists that are pushed to and popped from. -/
def dequeType : KeyType (List Str) (Deque.Op Str) where
  value := .list
  op := dequeOp
  level _ := Kv.authw
  step o l := (dequeReply o (Deque.step o l).1, (Deque.step o l).2)

/-- The pushes and pops of a run under a key. -/
def dequeOps (k : Str) (rs : List Request) : List (Deque.Op Str) :=
  (naming k rs).filterMap fun r => dequeOp (words r.com)

/-- A push or a pop that an entry allows. -/
def Permits (n : Kv) (r : Request) : Prop :=
  (dequeOp (words r.com)).isSome = true ∧ n.authw ≤ r.auth ∧ n.isExpired r.currTime = false

end MuseKv.Command
