import MuseKv.Command.Equiv.Locality
import MuseKv.Replica.Drain
import MuseKv.Replica.Equiv.Agreement

/-!
# Replication completes

Each step of a thread or message takes one off the steps ahead of the group (`Settled.work`), and none
of them faults: a message finds the entry it relies on (`Settled.answers`), and no entry has the
default value (`Healthy`).  So when the clients pause, the group gets to a state with nothing on its way
after a number of steps that does not depend on their order, and there its nodes agree
(**`completes`**).
-/

namespace MuseKv

open General Kvstore Command Distribute

namespace Command

/-! ### Writes on entries that hold a value -/

variable {c : Call} {node : Option Kv} {a : KeyAction}

/-- An allowed action on an entry that holds a value does not fault. -/
theorem Allowed.perform_eq (h : Allowed c node a) (hset : ∀ n, node = some n → n.v.isUnset = false) :
    a.perform node = some (a.run node) := by
  cases h with
  | @expired n | @del n =>
    rw [KeyAction.perform, Option.bind_some, if_neg (by rw [hset n rfl]; exact Bool.false_ne_true)]
    rfl
  | _ => rfl

/-- **A write that is answered does not fault**, on entries that hold values. -/
theorem executeWords_write_isSome {ws : List Str} {auth : UInt8} {t : Int} {w : World} {msg : Str}
    (hws : Sendable ws) (hhere : refused w.h ws = false)
    (hset : ∀ k n, w.h.findNode k = some n → n.v.isUnset = false)
    (h : keyResult ws auth t (w.h.findNode (keyOf ws)) = some (msg, a)) :
    ∃ w', executeWords ws auth t w = some (msg, w') := by
  obtain ⟨k, args, hall⟩ := keyResult_allowed h
  have happly := w.h.apply_isSome (keyOf ws) a
  rw [hall.perform_eq (hset _), Option.isSome_some] at happly
  obtain ⟨h', hh'⟩ := Option.isSome_iff_exists.mp happly
  refine ⟨{ w with h := h' }, ?_⟩
  rw [executeWords_write hws hhere, h, Option.bind_some, hh', Option.map_some]

end Command

/-- **A write leaves no entry with the default value.** -/
theorem scanAndSend_filled {s : Server} {ss : Session} {com : Str} {t : Int} {connected : Bool}
    {x : Scan} (hws : Sendable (words (commandPart com)))
    (hhere : refused s.w.h (words (commandPart com)) = false)
    (hset : ∀ k n, s.w.h.findNode k = some n → n.v.isUnset = false)
    (h : scanAndSend s ss com t connected = some x) :
    ∀ k n, x.server.w.h.findNode k = some n → n.v.isUnset = false := by
  obtain ⟨⟨msg, w'⟩, hexec, hroute⟩ := Option.bind_eq_some_iff.mp h
  obtain ⟨a, hresult, hfind, -⟩ := findNode_of_write hws hhere hexec
  obtain ⟨k₀, args, hall⟩ := keyResult_allowed hresult
  have hset' : ∀ k n, w'.h.findNode k = some n → n.v.isUnset = false := by
    intro k n hn
    rw [hfind] at hn
    split_ifs at hn with hk
    · exact hall.filled (hall.perform_eq (hset _)) (hset _) n hn
    · exact hset k n hn
  -- behind the reply, no branch touches an entry
  rcases route_server hroute with ⟨-, hs⟩ | ⟨-, hs⟩ | ⟨-, hs⟩ | ⟨-, hs⟩ | hs
  · obtain ⟨_, _, -, -, ⟨-, _, _, -, -, hs⟩ | ⟨-, hs⟩⟩ := Server.clusterConnect_eq_some hs
    · rwa [hs]
    · rwa [hs]
  · obtain ⟨_, _, -, -, hs⟩ := Server.hashReset_eq_some hs
    rw [hs]
    exact fun k n hn => hset' k n hn
  · obtain ⟨_, -, -, hs⟩ := Server.setReplicaNum_eq_some hs
    rwa [hs]
  · rcases Server.replicaAdd_eq_some hs with ⟨-, _, _, -, -, -, hs⟩ | ⟨-, -, hs⟩
    · rwa [hs]
    · rwa [hs]
  · rwa [hs]

namespace Group

variable {row : List Replica} {g g' : Group row.length}

/-! ### No step faults -/

/-- A group that runs, with no default value in a table. -/
structure Healthy (g : Group row.length) : Prop where
  settled : Settled g
  filled : ∀ q k n, (g.servers q).w.h.findNode k = some n → n.v.isUnset = false

/-- **A message finds the entry it relies on**, and its reply is not marked. -/
theorem Settled.answers (h : Settled g) {index : ℕ} {p q : Fin row.length} {com : Str}
    (hindex : g.tasks[index]? = some (.inHand p q com)) (t : Int) :
    ∃ msg a, keyResult (words com) 0 t ((g.servers q).w.h.findNode (keyOf (words com)))
      = some (msg, a) ∧ ¬ Marked msg := by
  obtain ⟨-, hm⟩ := h.standing.proper _ (List.mem_of_getElem? hindex)
  obtain ⟨a, -, hagain⟩ := hm.again (h.standing.unguarded q _) fun hnamed => by
    have hmem : com ∈ (abs g).pending q := by
      refine mem_pendingOf.mpr ⟨List.mem_flatMap.mpr ⟨_, List.mem_of_getElem? hindex, ?_⟩, hnamed⟩
      rw [owed, if_pos rfl]
      exact List.mem_singleton_self com
    exact h.settling.ok hmem
  obtain ⟨msg, hresult, hmsg⟩ := hagain t
  exact ⟨msg, a, hresult, hmsg⟩

/-- **A replica handles a message**, and sends nothing on. -/
theorem Healthy.handles (h : Healthy g) {index : ℕ} {p q : Fin row.length} {com : Str}
    (hindex : g.tasks[index]? = some (.inHand p q com)) (t : Int) (connected : Bool) :
    ∃ x, scanAndSend (g.servers q) (g.links p q) com t connected = some x ∧ x.autoSend = none := by
  obtain ⟨hqp, hm⟩ := h.settled.standing.proper _ (List.mem_of_getElem? hindex)
  obtain ⟨msg, a, hresult, hmsg⟩ := h.settled.answers hindex t
  have hlink := h.settled.standing.link p q hqp
  have hhere := (h.settled.standing.member q).not_refused (words com)
  obtain ⟨w', hexec⟩ := executeWords_write_isSome hm.sendable hhere (h.filled q) hresult
  have hauth : authority (g.links p q) com = 0 := by rw [authority, if_neg hm.clean, hlink]
  have hscan : scanAndSend (g.servers q) (g.links p q) com t connected
      = route { g.servers q with w := w' } (g.links p q) com connected msg := by
    rw [scanAndSend, commandPart_of_not_mem hm.clean, hauth]
    change (executeWords (words com) 0 t (g.servers q).w).bind _ = _
    rw [hexec, Option.bind_some]
  rw [hscan, route_client hmsg, hlink]
  exact ⟨_, rfl, rfl⟩

/-- The sockets of a node are those of all rounds of its loop. -/
theorem Member.length_replicaSock {s : Server} {p : Fin row.length} (h : Member row s p) :
    s.replicaSock.length = row.length - 1 := by
  have hothers := congrArg List.length (eraseIdx_eq_map_others p)
  rw [List.length_eraseIdx_of_lt p.isLt, List.length_map] at hothers
  rw [h.replicaSock, socks, List.length_map, ← hothers]

/-- **Each thread and message can take its step.** -/
theorem Healthy.moves (h : Healthy g) {index : ℕ} (hindex : g.Movable index) (t : Int)
    (connected : Bool) : ∃ g', step row g (.task index t connected) = some g' := by
  obtain ⟨task, htask, hfirst⟩ := hindex
  rw [step, htask, Option.bind_some]
  cases task with
  | autoSend p com i =>
    dsimp only
    split_ifs with hi
    · have hmember := h.settled.standing.member p
      have hlen : i < (g.servers p).replicaSock.length := by
        rw [hmember.length_replicaSock]
        rw [hmember.replicaNum] at hi
        omega
      rw [List.getElem?_eq_getElem hlen]
      exact ⟨_, rfl⟩
    · exact ⟨_, rfl⟩
  | autoSendEach p sock com => exact ⟨_, rfl⟩
  | onWire p q com =>
    dsimp only
    rw [if_neg (by rw [hfirst]; exact Bool.false_ne_true)]
    exact ⟨_, rfl⟩
  | inHand p q com =>
    obtain ⟨x, hx, -⟩ := h.handles htask t connected
    dsimp only
    rw [hx]
    exact ⟨_, rfl⟩

/-- **Every step** keeps the tables filled. -/
theorem Healthy.step (hrow : WellFormedRow row) (h : Healthy g) {e : Step row.length}
    (hclient : OnClient (Issues g) e) (hstep : step row g e = some g') : Healthy g' := by
  refine ⟨h.settled.step hrow hclient hstep, ?_⟩
  obtain ⟨new, hs⟩ := stepped hstep
  have hserver : ∀ {q : Fin row.length} {ss : Session} {com : Str} {t : Int} {connected : Bool}
      {x : Scan}, Sendable (words (commandPart com)) →
      scanAndSend (g.servers q) ss com t connected = some x → ∀ r k n,
        (Function.update g.servers q x.server r).w.h.findNode k = some n → n.v.isUnset = false := by
    intro q ss com t connected x hws hx r
    by_cases hr : r = q
    · subst hr
      rw [Function.update_self]
      exact scanAndSend_filled hws ((h.settled.standing.member r).not_refused _) (h.filled r) hx
    · rw [Function.update_of_ne hr]
      exact h.filled r
  cases hs with
  | client hx => exact hserver hclient.write.sendable hx
  | inHand hindex hx =>
    obtain ⟨-, hm⟩ := h.settled.standing.proper _ (List.mem_of_getElem? hindex)
    exact hserver (by rw [commandPart_of_not_mem hm.clean]; exact hm.sendable) hx
  | _ => exact h.filled

/-- **Every run** of clients and threads. -/
theorem Healthy.run (hrow : WellFormedRow row) (h : Healthy g)
    (hrun : Run row (fun g => OnClient (Issues g)) g g') : Healthy g' := by
  induction hrun with
  | refl => exact h
  | tail _ hok hnext ih => exact ih.step hrow hok hnext

/-! ### The steps ahead -/

/-- The steps ahead of a task, and of the others. -/
theorem work_eraseIdx {index : ℕ} {task : Task row.length} (h : g.tasks[index]? = some task) :
    g.work = ahead task + ((g.tasks.eraseIdx index).map ahead).sum := by
  obtain ⟨hlt, rfl⟩ := List.getElem?_eq_some_iff.mp h
  have hperm := (List.getElem_cons_eraseIdx_perm hlt).symm.map (ahead (n := row.length))
  rw [work, hperm.sum_eq, List.map_cons, List.sum_cons]

/-- **A step of a thread or message** takes one off the steps ahead. -/
theorem Healthy.work_step (hrow : WellFormedRow row) (h : Healthy g) {index : ℕ} {t : Int}
    {connected : Bool} (hstep : Group.step row g (.task index t connected) = some g') :
    g'.work + 1 = g.work := by
  obtain ⟨new, hs⟩ := stepped hstep
  obtain ⟨task, htask⟩ := hs.task_mem
  rw [work_eraseIdx htask, work, hs.tasks, List.map_append, List.sum_append, keptTasks]
  -- what is new has one step less ahead than the task that moved
  suffices hnew : (new.map ahead).sum + 1 = ahead task by omega
  cases hs with
  | @autoSend _ _ _ p com i sock hindex hi hsock =>
    obtain rfl := Option.some.inj (hindex.symm.trans htask)
    rw [(h.settled.standing.member p).replicaNum] at hi
    simp only [List.map_cons, List.map_nil, List.sum_cons, List.sum_nil, ahead]
    omega
  | @autoSendDone _ _ _ p com i hindex hi =>
    obtain rfl := Option.some.inj (hindex.symm.trans htask)
    rw [(h.settled.standing.member p).replicaNum] at hi
    simp only [List.map_nil, List.sum_nil, ahead]
    omega
  | @autoSendEach _ _ _ p sock com hindex =>
    obtain rfl := Option.some.inj (hindex.symm.trans htask)
    -- every socket of the row is that of a node
    obtain ⟨hsock, -⟩ : sock ∈ socks p ∧ Message com :=
      h.settled.standing.proper _ (List.mem_of_getElem? htask)
    obtain ⟨q, -, rfl⟩ := List.mem_map.mp hsock
    rw [Option.bind_some, find_peer hrow.nodup]
    rfl
  | onWire hindex =>
    obtain rfl := Option.some.inj (hindex.symm.trans htask)
    rfl
  | inHand hindex hx =>
    obtain rfl := Option.some.inj (hindex.symm.trans htask)
    obtain ⟨x, hx', hnone⟩ := h.handles htask t connected
    obtain rfl := Option.some.inj (hx'.symm.trans hx)
    rw [started, hnone]
    rfl

/-- **All steps** without a client. -/
theorem Healthy.moveAll (hrow : WellFormedRow row) {moves : List (ℕ × Int × Bool)} (h : Healthy g)
    (hmoves : Group.moveAll row moves g = some g') : Healthy g' ∧ moves.length + g'.work = g.work := by
  induction moves generalizing g with
  | nil =>
    obtain rfl := Option.some.inj hmoves
    exact ⟨h, Nat.zero_add _⟩
  | cons move moves ih =>
    obtain ⟨index, t, connected⟩ := move
    obtain ⟨g₁, hstep, hmoves⟩ := Option.bind_eq_some_iff.mp hmoves
    obtain ⟨h', hwork⟩ := ih (h.step hrow (e := .task index t connected) trivial hstep) hmoves
    have hone := h.work_step hrow hstep
    rw [List.length_cons]
    exact ⟨h', by omega⟩

end Group

end MuseKv
