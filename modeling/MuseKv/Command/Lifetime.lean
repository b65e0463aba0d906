import MuseKv.Command.Basic
import MuseKv.Value.Same

/-!
# The life of a server and its file

Commands, the snapshots that `auto_save` takes, the restarts of the process, and the disk, on which the
file can be opened for output at one time and not at another one.  Opening the file empties it, so a save
that is cut short, by a full disk or by the end of the process, leaves a piece of its text, perhaps
nothing.  One thing happens at a time: a save is not mixed with a command of another thread.
-/

namespace MuseKv

open Kvstore Command

/-- What happens to a table and its file. -/
inductive LifeEvent
  | command (r : Request)
  /-- The body of the loop of `auto_save`. -/
  | autoSave
  /-- The process ends, and `setup` makes an empty table. -/
  | restart
  | disk (writable : Bool)
  /-- A save of which only `written` reaches the disk, perhaps because the process ends. -/
  | torn (written : Str) (ends : Bool)

namespace LifeEvent

def step : LifeEvent → World → Option World
  | command r, w => (execute r.com r.auth r.currTime w).map Prod.snd
  | autoSave, w => w.save.map Prod.snd
  | restart, w => some { w with h := Hash.new w.h.portNum }
  | disk writable, w => some { w with writable := writable }
  | torn written ends, w => some
      { w with
        csv := if w.writable then some written else w.csv
        h := if ends then Hash.new w.h.portNum else w.h }

/-- The events that call `Hash::save` and write the whole text. -/
def saves : LifeEvent → Bool
  | command r => words r.com = [lit "save"] || words r.com = [lit "xsave"]
  | autoSave => true
  | restart => false
  | disk _ => false
  | torn .. => false

/-- The events that leave a piece of a text. -/
def tears : LifeEvent → Bool
  | torn .. => true
  | _ => false

end LifeEvent

/-- The events of a life, unless one faults. -/
def lifetime : List LifeEvent → World → Option World
  | [], w => some w
  | e :: es, w => (e.step w).bind (lifetime es)

/-- The table that was written to the file last, unless the file was torn since. -/
def lastSaved : List LifeEvent → World → Option Hash → Option Hash
  | [], _, last => last
  | e :: es, w, last =>
    (e.step w).elim last fun w' =>
      lastSaved es w' (if e.saves && w.writable then some w.h
        else if e.tears && w.writable then none else last)

/-- What `read` leaves under a key: the saved entry, with the lifetime of the entry that is there, or
that entry if none was saved. -/
def Restored (saved present : Option Kv) (node : Option Kv) : Prop :=
  match saved with
  | none => node = present
  | some n => ∃ v, n.v.Same v ∧ node = some (Hash.setEntry v n.authr n.authw present)

end MuseKv
