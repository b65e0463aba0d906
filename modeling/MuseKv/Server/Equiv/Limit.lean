import MuseKv.Server.Equiv.Sessions

/-!
# How many sessions a server accepts

`Ledger h ended quits`: `client_num` counts the sessions that were ever accepted, less the `ended` ones
whose threads saw the flag and less the nodes that `cluster_connect` reached; it stands at `101` exactly
when the accept loop has ended.  A session that ends in any other way is never counted down, so the
sessions of a whole run are bounded by what the clients say, not by how many are connected at a time:
**`accepts_le`**.
-/

namespace MuseKv

open Kvstore Command

/-- `cluster_connect` counts down for each pair of bounds that it stores. -/
theorem scanAndSend_slotStart {s : Server} {ss : Session} {com : Str} {t : Int} {connected : Bool}
    {x : Scan} (h : scanAndSend s ss com t connected = some x) :
    x.server.clientNum + x.server.slotStart.length = s.clientNum + s.slotStart.length ∧
      x.server.clientNum ≤ s.clientNum := by
  obtain ⟨r, -, h⟩ := Option.bind_eq_some_iff.mp h
  rcases route_server h with ⟨-, h⟩ | ⟨-, h⟩ | ⟨-, h⟩ | ⟨-, h⟩ | h
  · obtain ⟨_, _, -, -, ⟨-, _, _, -, -, h⟩ | ⟨-, h⟩⟩ := Server.clusterConnect_eq_some h
    · rw [h]
      dsimp only
      rw [List.length_append, List.length_singleton]
      push_cast
      exact ⟨by ring, by linarith⟩
    · -- without the connection, neither the bounds nor the counter are reached
      rw [h]
      exact ⟨rfl, le_rfl⟩
  · obtain ⟨_, _, -, -, h⟩ := Server.hashReset_eq_some h
    rw [h]
    exact ⟨rfl, le_rfl⟩
  · obtain ⟨_, -, -, h⟩ := Server.setReplicaNum_eq_some h
    rw [h]
    exact ⟨rfl, le_rfl⟩
  · rcases Server.replicaAdd_eq_some h with ⟨-, _, _, -, -, -, h⟩ | ⟨-, -, h⟩
    · rw [h]
      exact ⟨rfl, le_rfl⟩
    · rw [h]
      exact ⟨rfl, le_rfl⟩
  · rw [h]
    exact ⟨rfl, le_rfl⟩

/-- The round in which a thread sees the flag. -/
def HostEvent.isOffline : HostEvent → Bool
  | .offline _ => true
  | _ => false

/-- A client says `quit`. -/
def HostEvent.isQuit : HostEvent → Bool
  | .recv _ (some com) _ _ => com == lit "quit"
  | _ => false

/-- The thread is in the loop, and will see the flag in its next round. -/
def ServerTask.leaving (t : ServerTask) : Bool := t.running && !t.online

namespace Host

/-- `client_num` against the sessions accepted; `ended` of the `quits` have been noticed. -/
structure Ledger (h : Host) (ended quits : ℕ) : Prop where
  count : h.server.clientNum + h.server.slotStart.length + ended = h.tasks.length
  loop : h.accepting = true ↔ h.server.clientNum ≤ maxClientNum
  bound : h.server.clientNum ≤ maxClientNum + 1
  quits : ended + h.tasks.countP ServerTask.leaving = quits

theorem ledger_setup (w : World) : Ledger (setup w) 0 0 where
  count := rfl
  loop := iff_of_true rfl (show (0 : Int) ≤ maxClientNum by decide)
  bound := show (0 : Int) ≤ maxClientNum + 1 by decide
  quits := rfl

variable {h h' : Host} {ended quits : ℕ}

/-- A new session, or a failure of `accept`. -/
theorem Ledger.accept (hl : Ledger h ended quits) (hacc : h.accepting = true) (descriptor : Bool) :
    Ledger (h.accept descriptor) ended quits := by
  have hle := hl.loop.mp hacc
  cases descriptor with
  | false =>
    refine ⟨hl.count, ?_, hl.bound, hl.quits⟩
    simp [Host.accept, overClient]
  | true =>
    constructor
    · change h.server.clientNum + 1 + (h.server.slotStart.length : Int) + ended
        = ((h.tasks ++ [({} : ServerTask)]).length : Int)
      rw [List.length_append, List.length_singleton]
      push_cast
      linarith [hl.count]
    · simp [Host.accept, overClient]
    · exact Int.add_le_add_right hle 1
    · change ended + (h.tasks ++ [({} : ServerTask)]).countP ServerTask.leaving = quits
      rw [List.countP_append]
      exact hl.quits

/-- A round of a thread: `client_num` does not grow, and the accept loop goes on. -/
theorem Ledger.setTask (hl : Ledger h ended quits) (hacc : h.accepting = true) {i : ℕ}
    {u : ServerTask} {s : Server} (ended' : ℕ)
    (hcount : s.clientNum + s.slotStart.length + ended'
      = h.server.clientNum + h.server.slotStart.length + ended)
    (hle : s.clientNum ≤ h.server.clientNum) (sockVec : List ℕ) :
    Ledger { h with server := s, tasks := h.tasks.set i u, sockVec := sockVec } ended'
      (ended' + (h.tasks.set i u).countP ServerTask.leaving) where
  count := by
    dsimp only
    rw [List.length_set, hcount, hl.count]
  loop := iff_of_true hacc (hle.trans (hl.loop.mp hacc))
  bound := hle.trans hl.bound
  quits := rfl

/-- What a session contributes to the sessions that are leaving. -/
theorem countP_set_leaving {i : ℕ} {t u : ServerTask} {l : List ServerTask} (ht : l[i]? = some t) :
    (l.set i u).countP ServerTask.leaving + (if t.leaving then 1 else 0)
      = l.countP ServerTask.leaving + if u.leaving then 1 else 0 := by
  obtain ⟨hi, hti⟩ := List.getElem?_eq_some_iff.mp ht
  rw [List.countP_set hi, hti]
  cases hleaving : t.leaving with
  | false => simp
  | true =>
    have hpos : 0 < l.countP ServerTask.leaving :=
      List.countP_pos_iff.mpr ⟨t, List.mem_of_getElem? ht, hleaving⟩
    simp only [if_true]
    omega

/-- A thread that reaches `recv`: only `quit` makes a session leave. -/
theorem Ledger.recv (hl : Ledger h ended quits) (hacc : h.accepting = true) {i : ℕ} {t : ServerTask}
    (ht : h.tasks[i]? = some t) (hrun : t.running = true) (honline : t.online = true)
    {com : Option Str} {time : Int} {connected : Bool}
    (hstep : h.recv i t com time connected = some h') :
    Ledger h' ended (quits + if (HostEvent.recv i com time connected).isQuit then 1 else 0) := by
  have hstays : t.leaving = false := by simp [ServerTask.leaving, honline]
  -- the number of sessions that leave is the old one, or one more
  have hnext : ∀ {u : ServerTask} {s : Server}, s.clientNum + s.slotStart.length
        = h.server.clientNum + h.server.slotStart.length → s.clientNum ≤ h.server.clientNum →
      Ledger { h with server := s, tasks := h.tasks.set i u } ended
        (quits + if u.leaving then 1 else 0) := by
    intro u s hcount hle
    have hset := countP_set_leaving (u := u) ht
    rw [hstays, if_neg Bool.false_ne_true, Nat.add_zero] at hset
    have hround := hl.setTask (i := i) (u := u) hacc ended (by rw [hcount]) hle h.sockVec
    rwa [hset, ← Nat.add_assoc, hl.quits] at hround
  cases com with
  | none =>
    obtain rfl := Option.some.inj hstep
    exact hnext (u := { t with running := false, isOpen := false }) (s := h.server) rfl le_rfl
  | some com =>
    rw [Host.recv] at hstep
    split_ifs at hstep with hquit
    · obtain rfl := Option.some.inj hstep
      have hleaves := hnext (u := { t with online := false }) (s := h.server) rfl le_rfl
      have hleaving : ServerTask.leaving { t with online := false } = true := by
        simp [ServerTask.leaving, hrun]
      rw [hleaving] at hleaves
      rw [HostEvent.isQuit, hquit]
      exact hleaves
    · obtain ⟨x, hx, rfl⟩ := Option.map_eq_some_iff.mp hstep
      obtain ⟨hcount, hle⟩ := scanAndSend_slotStart hx
      have hsame := hnext (u := { t with session := x.session }) hcount hle
      have hleaving : ServerTask.leaving { t with session := x.session } = false := hstays
      rw [hleaving] at hsame
      rw [HostEvent.isQuit, beq_eq_false_iff_ne.mpr hquit]
      exact hsame

/-- A thread that sees the flag counts its session down. -/
theorem Ledger.offline (hl : Ledger h ended quits) (hacc : h.accepting = true) {i : ℕ} {t : ServerTask}
    (ht : h.tasks[i]? = some t) (hrun : t.running = true) (honline : t.online = false)
    (hstep : h.offline i t = some h') : Ledger h' (ended + 1) quits := by
  rw [Host.offline] at hstep
  split_ifs at hstep with hmem
  obtain rfl := Option.some.inj hstep
  have hleaves : t.leaving = true := by simp [ServerTask.leaving, hrun, honline]
  have hset := countP_set_leaving (u := { t with running := false, isOpen := false }) ht
  rw [hleaves, if_pos rfl] at hset
  have hround := hl.setTask (i := i) (u := { t with running := false, isOpen := false })
    (s := { h.server with clientNum := h.server.clientNum - 1 }) hacc (ended + 1)
    (by push_cast; ring) (by linarith) (h.sockVec.erase i)
  have hquits : ended + 1 + (h.tasks.set i { t with running := false, isOpen := false }).countP
      ServerTask.leaving = quits := by
    rw [Nat.add_assoc, Nat.add_comm 1, hset, ← hl.quits]
    rfl
  rwa [hquits] at hround

/-- **One step.** -/
theorem Ledger.step (hl : Ledger h ended quits) {e : HostEvent} (hstep : h.step e = some h') :
    Ledger h' (ended + if e.isOffline then 1 else 0) (quits + if e.isQuit then 1 else 0) := by
  cases e with
  | accept descriptor =>
    rw [Host.step] at hstep
    split_ifs at hstep with hacc
    obtain rfl := Option.some.inj hstep
    exact hl.accept hacc descriptor
  | recv i com time connected =>
    rw [Host.step] at hstep
    split_ifs at hstep with hacc
    obtain ⟨t, ht, hstep⟩ := Option.bind_eq_some_iff.mp hstep
    split_ifs at hstep with hloop
    rw [Bool.and_eq_true] at hloop
    exact hl.recv hacc ht hloop.1 hloop.2 hstep
  | offline i =>
    rw [Host.step] at hstep
    split_ifs at hstep with hacc
    obtain ⟨t, ht, hstep⟩ := Option.bind_eq_some_iff.mp hstep
    split_ifs at hstep with hloop
    rw [Bool.and_eq_true, Bool.not_eq_true'] at hloop
    exact hl.offline hacc ht hloop.1 hloop.2 hstep

/-- **A run.** -/
theorem Ledger.run (hl : Ledger h ended quits) {es : List HostEvent} (hrun : Host.run es h = some h') :
    Ledger h' (ended + es.countP HostEvent.isOffline) (quits + es.countP HostEvent.isQuit) := by
  induction es generalizing h ended quits with
  | nil =>
    obtain rfl := Option.some.inj hrun
    exact hl
  | cons e es ih =>
    obtain ⟨h₁, hstep, hrun⟩ := Option.bind_eq_some_iff.mp hrun
    have hnext := ih (hl.step hstep) hrun
    rwa [List.countP_cons, List.countP_cons, add_comm (es.countP _), add_comm (es.countP _),
      ← add_assoc, ← add_assoc]

/-- **The sessions of a life.**  A server is still accepting exactly if the sessions it ever accepted are
at most a hundred, besides those that ended after a `quit` and the nodes it connected to; it never
accepts more than one beyond, however many of them are still connected. -/
theorem accepts_le {w : World} {es : List HostEvent} (hrun : run es (setup w) = some h) :
    (h.accepting = true ↔
        h.tasks.length ≤ 100 + es.countP HostEvent.isOffline + h.server.slotStart.length) ∧
      h.tasks.length ≤ 101 + es.countP HostEvent.isOffline + h.server.slotStart.length ∧
      es.countP HostEvent.isOffline ≤ es.countP HostEvent.isQuit := by
  have hl := (ledger_setup w).run hrun
  rw [Nat.zero_add, Nat.zero_add] at hl
  have hcount := hl.count
  have hbound := hl.bound
  have hquits := hl.quits
  rw [maxClientNum] at hbound
  refine ⟨?_, by omega, by omega⟩
  rw [hl.loop, maxClientNum]
  omega

/-- After `101` clients that came and went without a `quit`, one more is not accepted. -/
theorem accepts_le_comeAndGo : ∃ h,
    run (comeAndGo 100 ++ [.accept true]) (setup (World.fresh 5001)) = some h ∧ h.accepting = false := by
  have hrun : run (comeAndGo 100 ++ [.accept true]) (setup (World.fresh 5001)) = some
      { server := { w := World.fresh 5001, clientNum := ((100 : ℕ) : Int) + 1 }
        tasks := List.replicate 100 gone ++ [({} : ServerTask)]
        sockVec := List.range 100 ++ [100]
        accepting := !decide (((100 : ℕ) : Int) + 1 > maxClientNum) } := by
    rw [run_append, run_comeAndGo _ le_rfl, Option.bind_some, run, step_accept, Option.bind_some,
      run]
  refine ⟨_, hrun, Bool.eq_false_iff.mpr fun hacc => ?_⟩
  have hle := (accepts_le hrun).1.mp hacc
  have hnone : (comeAndGo 100 ++ [HostEvent.accept true]).countP HostEvent.isOffline = 0 := by decide
  rw [hnone] at hle
  exact absurd hle (by simp)

end Host

end MuseKv
