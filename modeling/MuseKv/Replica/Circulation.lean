import MuseKv.Replica.Builder

/-!
# Writes and what they cause

A run of a group in which every thread and message carries the client command that it stems from, if it
stems from one.  The steps are those of `Group.step`; what is added is a record of the commands that are
executed, and of the messages that are sent on the connections between the replicas.
-/

namespace MuseKv

open Kvstore Command Distribute

/-- A group with the origin of each of its tasks, the number of commands that clients have sent, the
commands that were executed with the node that executed them, and the messages that were sent. -/
structure Traced (n : ℕ) where
  servers : Fin n → Server
  links : Fin n → Fin n → Session
  jobs : List (Task n × Option ℕ)
  writes : ℕ
  executed : List (Option ℕ × Fin n)
  sent : List (Option ℕ)

namespace Traced

/-- The group without the record. -/
def group {n : ℕ} (u : Traced n) : Group n where
  servers := u.servers
  links := u.links
  tasks := u.jobs.map Prod.fst

/-- A group before its first step. -/
def start {n : ℕ} (g : Group n) : Traced n where
  servers := g.servers
  links := g.links
  jobs := g.tasks.map fun task => (task, none)
  writes := 0
  executed := []
  sent := []

variable {row : List Replica}

/-- The jobs that a step leaves as they are. -/
def kept {n : ℕ} (u : Traced n) : Group.Step n → List (Task n × Option ℕ)
  | .client .. => u.jobs
  | .task index .. => u.jobs.eraseIdx index

/-- The client command that a step belongs to. -/
def origin {n : ℕ} (u : Traced n) : Group.Step n → Option ℕ
  | .client .. => some u.writes
  | .task index .. => u.jobs[index]?.bind Prod.snd

/-- The node that executes a command in a step. -/
def executor {n : ℕ} (g : Group n) : Group.Step n → Option (Fin n)
  | .client p .. => some p
  | .task index .. => g.tasks[index]?.bind fun
    | .inHand _ q _ => some q
    | _ => none

/-- Whether a task is a message on a connection. -/
def isMessage {n : ℕ} : Task n → Bool
  | .onWire .. => true
  | _ => false

/-- One step.  The tasks behind those that are kept are the new ones. -/
def step (row : List Replica) (u : Traced row.length) (e : Group.Step row.length) :
    Option (Traced row.length) :=
  (Group.step row u.group e).map fun g =>
    let new := g.tasks.drop (u.kept e).length
    { servers := g.servers
      links := g.links
      jobs := u.kept e ++ new.map fun task => (task, u.origin e)
      writes := match e with
        | .client .. => u.writes + 1
        | .task .. => u.writes
      executed := u.executed ++ (executor u.group e).toList.map fun q => (u.origin e, q)
      sent := u.sent ++ (new.filter isMessage).map fun _ => u.origin e }

/-- The runs whose steps all meet a condition on the group before the step. -/
inductive Run (row : List Replica) (ok : Group row.length → Group.Step row.length → Prop) :
    Traced row.length → Traced row.length → Prop
  | refl (u : Traced row.length) : Run row ok u u
  | tail {u u₁ u₂ : Traced row.length} {e : Group.Step row.length} (h : Run row ok u u₁)
      (hok : ok u₁.group e) (hstep : step row u₁ e = some u₂) : Run row ok u u₂

end Traced

namespace Group

variable {row : List Replica}

/-- The messages of a connection are handled one at a time: the next one is received when the one before
it is handled. -/
def OneAtATime (g : Group row.length) : Step row.length → Prop
  | .client .. => True
  | .task index .. => ∀ p q com, g.tasks[index]? = some (.onWire p q com) →
      ∀ com', .inHand p q com' ∉ g.tasks

/-- No execution is answered by a reply with `hashval` in it. -/
def Unredirected (g : Group row.length) : Step row.length → Prop
  | .client p ss com t _ => ∀ r, execute (commandPart com) (toU8 (authority ss com)) t (g.servers p).w
      = some r → ¬ lit "hashval" <:+: r.1
  | .task index t _ => ∀ p q com, g.tasks[index]? = some (.inHand p q com) →
      ∀ r, execute (commandPart com) (toU8 (authority (g.links p q) com)) t (g.servers q).w = some r →
        ¬ lit "hashval" <:+: r.1

/-- What clients send are writes. -/
def Writes : Step row.length → Prop
  | .client _ _ com _ _ => commandType com = .write
  | .task .. => True

/-- The steps of a group that replicates the writes of its clients. -/
structure Replicating (g : Group row.length) (e : Step row.length) : Prop where
  write : Writes e
  unredirected : g.Unredirected e
  oneAtATime : g.OneAtATime e

end Group

end MuseKv
