import MuseKv.Command.LazyExpiry

/-!
# Commands and sweeps

A background thread removes expired entries between the commands, and a sweep of it may meet any of them.
`runSwept` is a run of commands with such sweeps; `runAll` is the one without.
-/

namespace MuseKv

open General Kvstore Command

/-- What a sweep at the time `t` removes: the entries that are expired, of the keys that it meets. -/
def Hash.swept (t : Int) (met : Str → Bool) (e : Str × Kv) : Bool := met e.1 && e.2.isExpired t

/-- A sweep.  It faults where it meets an expired entry with the default value, as `del` does. -/
def Hash.sweep (h : Hash) (t : Int) (met : Str → Bool) : Option Hash :=
  if h.entries.any fun e => Hash.swept t met e && e.2.v.isUnset then none
  else some { h with
    h := Buckets.filter (fun e => !Hash.swept t met e) h.h
    wf := h.wf.filter _ }

/-- What happens to a table that is swept. -/
inductive SweepEvent
  | command (r : Request)
  | sweep (t : Int) (met : Str → Bool)

namespace SweepEvent

def time : SweepEvent → Int
  | command r => r.currTime
  | sweep t _ => t

/-- The replies, and what is left. -/
def step : SweepEvent → World → Option (List Str × World)
  | command r, w => (execute r.com r.auth r.currTime w).map fun x => ([x.1], x.2)
  | sweep t met, w => (w.h.sweep t met).map fun h => ([], { w with h := h })

/-- The commands among the events. -/
def requests : List SweepEvent → List Request
  | [] => []
  | command r :: es => r :: requests es
  | sweep _ _ :: es => requests es

end SweepEvent

/-- Commands and sweeps, unless one faults. -/
def runSwept : List SweepEvent → World → Option (List Str × World)
  | [], w => some ([], w)
  | e :: es, w => (e.step w).bind fun x => (runSwept es x.2).map fun y => (x.1 ++ y.1, y.2)

namespace Command

/-- No command of a run shows an expired entry. -/
def Undisturbed : List Request → World → Prop
  | [], _ => True
  | r :: rs, w => Unaffected r.com r.auth r.currTime w ∧
      ∀ x, execute r.com r.auth r.currTime w = some x → Undisturbed rs x.2

end Command

end MuseKv
