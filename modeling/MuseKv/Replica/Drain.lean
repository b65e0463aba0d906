import MuseKv.Replica.Group

/-!
# Replication that runs out

The threads and messages of a group move on while no client sends a command.  What each of them has
ahead of it is a fixed number of steps, whatever the order in which they move.
-/

namespace MuseKv.Group

variable {n : ℕ}

/-- A thread or message that can move on: a message is the first one on its connection. -/
def Movable (g : Group n) (index : ℕ) : Prop :=
  ∃ task, g.tasks[index]? = some task ∧ (g.tasks.take index).any (Task.sameWire task) = false

/-- Steps of threads and messages alone: which one moves, the time, and whether a connection that a
message asks for comes about. -/
def moveAll (row : List Distribute.Replica) :
    List (ℕ × Int × Bool) → Group row.length → Option (Group row.length)
  | [], g => some g
  | (index, t, connected) :: moves, g => (step row g (.task index t connected)).bind (moveAll row moves)

/-- The steps ahead of a task: a round of `auto_send` starts a thread that sends a message, which is
received and handled. -/
def ahead : Task n → ℕ
  | .autoSend _ _ i => 4 * (n - 1 - i) + 1
  | .autoSendEach .. => 3
  | .onWire .. => 2
  | .inHand .. => 1

/-- The steps ahead of a group. -/
def work (g : Group n) : ℕ := (g.tasks.map ahead).sum

end MuseKv.Group
