import MuseKv.Cluster.Serving
import Mathlib.Algebra.BigOperators.Group.Finset.Basic
import Mathlib.Data.Fintype.BigOperators

/-!
# The steps ahead of the clients of a cluster

A command is taken by a node.  If that node does not own its key, it is then received by the owner, which
replies, and the reply is received: so many steps are ahead of it, wherever it stands.
-/

namespace MuseKv.Serving

open Kvstore Command

variable {ι : Type} {n : ℕ}

/-- The steps ahead of a command.  While its thread waits, they depend on what is on the connection. -/
def ahead (client : ι → ClientCom n) (s : Serving ι n) (r : ι) : ℕ :=
  match s.stand r with
  | .answered _ => 0
  | .waiting c =>
    let l := s.links (client r).node c
    3 * l.requests.length + 2 * l.inHand.length + l.replies.length
  | .unsent => 4

/-- The steps ahead of all commands. -/
def work [Fintype ι] (client : ι → ClientCom n) (s : Serving ι n) : ℕ := ∑ r, ahead client s r

/-- A command without a reply can be executed by the owner of its key, and its reply gets through. -/
def Serviceable [DecidableEq ι] (client : ι → ClientCom n) (s : Serving ι n) : Prop :=
  ∀ r, s.reply client r = none → ∀ c, refused (s.servers c).w.h (words (client r).com) = false →
    ∃ msg w', exec (client r) (s.servers c).w = some (msg, w') ∧ Answerable msg

end MuseKv.Serving
