import MuseKv.Value.Hashset
import MuseKv.Value.Hashmap

/-!
# Values and their entries

`Value` is `kvstore::value` with the object its address points to, and `Kv` is `kvstore::kv` without
the key, which the table keeps beside it.
-/

namespace MuseKv

open Kvstore

/-- `kvstore::dtype`. -/
inductive Dtype
  | string
  | list
  | set
  | hashmap
  deriving DecidableEq, Repr

/-- A `kvstore::value`.  `unset` is the default value, of type `String` and with the address `-1`:
following that address is a fault. -/
inductive Value
  | string (s : Str)
  | list (l : List Str)
  | set (s : Hashset)
  | hashmap (m : Hashmap)
  | unset

namespace Value

def dataDtype : Value → Dtype
  | string _ => .string
  | list _ => .list
  | set _ => .set
  | hashmap _ => .hashmap
  | unset => .string

def isUnset : Value → Bool
  | unset => true
  | _ => false

/-- `split(data, ',', data_splited, len)` followed by `delete[] data_splited`: a fault for the empty
string, which leaves the pointer unset. -/
def splitData (data : Str) : Option (List Str) :=
  if data = [] then none else some (split data (byte ','))

/-- The loop `set_fv(data_splited[2*i], data_splited[2*i+1])` for `i < len / 2`. -/
def setPairs : List Str → Hashmap → Hashmap
  | f :: v :: rest, m => setPairs rest (m.setFv f v)
  | _, m => m

/-- `data_encode` of `command.cpp`, and `data_encode_node` of `hash.cpp` with the same body. -/
def dataEncode (data : Str) : Dtype → Option Value
  | .string => some (string data)
  | .list => (splitData data).map fun l => list (l.foldl Linkedlist.pushBack [])
  | .set => (splitData data).map fun l => set (l.foldl Hashset.push Hashset.empty)
  | .hashmap => (splitData data).map fun l => hashmap (setPairs l Hashmap.empty)

/-- `(empty)` in place of an empty print. -/
def orEmpty (print : Str) : Str := if print ≠ [] then print else lit "(empty)"

/-- `data_decode` of `command.cpp`, and `data_decode_node` of `hashnode.cpp` with the same body. -/
def dataDecode : Value → Option Str
  | string s => some s
  | list l => some (orEmpty (Linkedlist.print l))
  | set s => some (orEmpty s.print)
  | hashmap m => some (if m.isEmpty then lit "(empty)" else m.fvs)
  | unset => none

end Value

/-- A `kvstore::kv`.  The constructor leaves `timer` unset; it is read only after `set_ttl` wrote
it, since `ttl` is `-1` until then. -/
structure Kv where
  v : Value
  ttl : Int := -1
  timer : Int := 0
  finished : Bool := false
  authr : UInt8
  authw : UInt8

namespace Kv

def isExpired (n : Kv) (currTime : Int) : Bool :=
  if n.finished then true
  else if n.ttl = -1 then false
  else if currTime - n.timer < n.ttl then false
  else true

/-- `get_ttl`: an expired entry is marked as finished.  `difftime` returns a `double`. -/
def getTtl (n : Kv) (currTime : Int) : Int × Kv :=
  if n.ttl = -1 then (-1, n)
  else if n.isExpired currTime then (0, { n with finished := true })
  else (doubleToInt (n.ttl - (currTime - n.timer)), n)

def setV (n : Kv) (v : Value) : Kv := { n with v := v }

/-- `set_ttl(time_ex)` at the time `now`. -/
def setTtl (n : Kv) (timeEx now : Int) : Kv := { n with ttl := timeEx, timer := now }

/-- `set_authr`: a write level below the new read level is raised to it. -/
def setAuthr (n : Kv) (authr : UInt8) : Kv :=
  { n with authr := authr, authw := if authr > n.authw then authr else n.authw }

/-- `set_authw`: a read level above the new write level is lowered to it. -/
def setAuthw (n : Kv) (authw : UInt8) : Kv :=
  { n with authw := authw, authr := if n.authr > authw then authw else n.authr }

/-- The three calls of `Hash::set` on the node it found. -/
def overwrite (n : Kv) (v : Value) (authr authw : UInt8) : Kv :=
  ((n.setV v).setAuthr authr).setAuthw authw

/-- An ordered pair of levels is what `overwrite` leaves, whatever the levels were. -/
theorem overwrite_levels (n : Kv) (v : Value) {authr authw : UInt8} (h : authr ≤ authw) :
    (n.overwrite v authr authw).authr = authr ∧ (n.overwrite v authr authw).authw = authw := by
  refine ⟨?_, rfl⟩
  change (if authr > authw then authw else authr) = authr
  rw [if_neg (UInt8.not_lt.mpr h)]

@[simp]
theorem overwrite_v (n : Kv) (v : Value) (authr authw : UInt8) :
    (n.overwrite v authr authw).v = v := rfl

/-- Overwriting keeps the lifetime. -/
@[simp]
theorem overwrite_ttl (n : Kv) (v : Value) (authr authw : UInt8) :
    (n.overwrite v authr authw).ttl = n.ttl ∧ (n.overwrite v authr authw).timer = n.timer ∧
      (n.overwrite v authr authw).finished = n.finished :=
  ⟨rfl, rfl, rfl⟩

theorem getTtl_of_not_expired {n : Kv} {t : Int} (h : n.isExpired t = false) :
    (n.getTtl t).2 = n := by
  rw [getTtl]
  split_ifs with h₁ h₂
  · rfl
  · rw [h] at h₂
    exact absurd h₂ Bool.false_ne_true
  · rfl

end Kv

end MuseKv
