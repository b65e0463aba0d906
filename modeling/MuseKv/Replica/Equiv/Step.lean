import MuseKv.Replica.Group

/-!
# The steps of a group

`Stepped` has a constructor for each kind of step, with its guard, the tasks that are new and the group that
is left; `stepped` says that there are no other steps.
-/

namespace MuseKv

open Distribute

namespace Group

variable {row : List Replica} {g g' : Group row.length}

/-- What is left of the tasks. -/
def keptTasks (g : Group row.length) : Step row.length → List (Task row.length)
  | .client .. => g.tasks
  | .task index .. => g.tasks.eraseIdx index

/-- **The steps of a group**, a constructor for each: the tasks that are new, and the group without them. -/
inductive Stepped (g : Group row.length) :
    Step row.length → List (Task row.length) → Group row.length → Prop
  | client {p : Fin row.length} {ss : Session} {com : Str} {t : Int} {connected : Bool} {x : Scan}
      (h : scanAndSend (g.servers p) ss com t connected = some x) :
      Stepped g (.client p ss com t connected) (started p x)
        { g with
          servers := Function.update g.servers p x.server
          tasks := g.tasks ++ started p x }
  | autoSend {index : ℕ} {t : Int} {connected : Bool} {p : Fin row.length} {com : Str} {i : ℕ}
      {sock : Option Peer} (h : g.tasks[index]? = some (.autoSend p com i))
      (hi : (i : Int) < (g.servers p).replicaNum - 1)
      (hsock : (g.servers p).replicaSock[i]? = some sock) :
      Stepped g (.task index t connected) [.autoSendEach p sock com, .autoSend p com (i + 1)]
        { g with tasks := g.tasks.eraseIdx index ++ [.autoSendEach p sock com, .autoSend p com (i + 1)] }
  | autoSendDone {index : ℕ} {t : Int} {connected : Bool} {p : Fin row.length} {com : Str} {i : ℕ}
      (h : g.tasks[index]? = some (.autoSend p com i))
      (hi : ¬ (i : Int) < (g.servers p).replicaNum - 1) :
      Stepped g (.task index t connected) [] { g with tasks := g.tasks.eraseIdx index ++ [] }
  | autoSendEach {index : ℕ} {t : Int} {connected : Bool} {p : Fin row.length} {sock : Option Peer}
      {com : Str} (h : g.tasks[index]? = some (.autoSendEach p sock com)) :
      Stepped g (.task index t connected) ((sock.bind (find row)).toList.map fun q => .onWire p q com)
        { g with tasks :=
          g.tasks.eraseIdx index ++ (sock.bind (find row)).toList.map fun q => .onWire p q com }
  | onWire {index : ℕ} {t : Int} {connected : Bool} {p q : Fin row.length} {com : Str}
      (h : g.tasks[index]? = some (.onWire p q com))
      (hfirst : (g.tasks.take index).any (Task.sameWire (.onWire p q com)) = false) :
      Stepped g (.task index t connected) [.inHand p q com]
        { g with tasks := g.tasks.eraseIdx index ++ [.inHand p q com] }
  | inHand {index : ℕ} {t : Int} {connected : Bool} {p q : Fin row.length} {com : Str} {x : Scan}
      (h : g.tasks[index]? = some (.inHand p q com))
      (hx : scanAndSend (g.servers q) (g.links p q) com t connected = some x) :
      Stepped g (.task index t connected) (started q x)
        { servers := Function.update g.servers q x.server
          links := Function.update g.links p (Function.update (g.links p) q x.session)
          tasks := g.tasks.eraseIdx index ++ started q x }

theorem stepped {e : Step row.length} (h : step row g e = some g') : ∃ new, Stepped g e new g' := by
  cases e with
  | client p ss com t connected =>
    obtain ⟨x, hx, rfl⟩ := Option.map_eq_some_iff.mp h
    exact ⟨_, .client hx⟩
  | task index t connected =>
    obtain ⟨task, htask, h⟩ := Option.bind_eq_some_iff.mp h
    cases task with
    | autoSend p com i =>
      dsimp only at h
      split_ifs at h with hi
      · obtain ⟨sock, hsock, rfl⟩ := Option.map_eq_some_iff.mp h
        exact ⟨_, .autoSend htask hi hsock⟩
      · obtain rfl := Option.some.inj h
        have hdone : Stepped g (.task index t connected) [] _ := .autoSendDone htask hi
        rw [List.append_nil] at hdone
        exact ⟨_, hdone⟩
    | autoSendEach p sock com =>
      obtain rfl := Option.some.inj h
      exact ⟨_, .autoSendEach htask⟩
    | onWire p q com =>
      dsimp only at h
      split_ifs at h with hfirst
      obtain rfl := Option.some.inj h
      exact ⟨_, .onWire htask (Bool.eq_false_of_not_eq_true hfirst)⟩
    | inHand p q com =>
      obtain ⟨x, hx, rfl⟩ := Option.map_eq_some_iff.mp h
      exact ⟨_, .inHand htask hx⟩

/-- The new tasks stand behind those that are kept. -/
theorem Stepped.tasks {e : Step row.length} {new : List (Task row.length)} (h : Stepped g e new g') :
    g'.tasks = keptTasks g e ++ new := by
  cases h with
  | _ => rfl

/-- A client command starts what its handling starts. -/
theorem Stepped.client_new {p : Fin row.length} {ss : Session} {com : Str} {t : Int} {connected : Bool}
    {new : List (Task row.length)} (h : Stepped g (.client p ss com t connected) new g') :
    ∃ x, new = started p x := by
  cases h with
  | client => exact ⟨_, rfl⟩

/-- A thread or message that moves on is one of the group. -/
theorem Stepped.task_mem {index : ℕ} {t : Int} {connected : Bool} {new : List (Task row.length)}
    (h : Stepped g (.task index t connected) new g') : ∃ task, g.tasks[index]? = some task := by
  cases h with
  | autoSend hindex => exact ⟨_, hindex⟩
  | autoSendDone hindex => exact ⟨_, hindex⟩
  | autoSendEach hindex => exact ⟨_, hindex⟩
  | onWire hindex => exact ⟨_, hindex⟩
  | inHand hindex => exact ⟨_, hindex⟩

end Group

end MuseKv
