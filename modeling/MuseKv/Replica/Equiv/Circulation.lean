import MuseKv.General.Provenance
import MuseKv.Replica.Equiv.Mesh

/-!
# A replicated write does not circulate

In a mesh a command that comes from another replica starts no thread, so what a client command may
still cause is bounded by its threads and messages: a thread `auto_send` has the sockets that it has not
taken, and a message has one execution (`cost`).  Every step stays within that (`paid_le`), and so does
every run (`Bounded`).

* **`never_circulates`**: a client write is executed at most once on each replica, it causes a message to
  each other replica at most, and a command that is received over a connection is not sent on.
-/

namespace MuseKv

open General Kvstore Command Distribute MuseKv.Group Replication

namespace Traced

variable {row : List Replica} {g g' : Group row.length} {u u' : Traced row.length}
  {w : ℕ} {r : Fin row.length → ℕ}

/-! ### What is recorded -/

theorem map_fst_kept (u : Traced row.length) (e : Group.Step row.length) :
    (u.kept e).map Prod.fst = keptTasks u.group e := by
  cases e with
  | client => rfl
  | task index =>
    show (u.jobs.eraseIdx index).map Prod.fst = (u.jobs.map Prod.fst).eraseIdx index
    rw [List.eraseIdx_eq_take_drop_succ, List.eraseIdx_eq_take_drop_succ, List.map_append, List.map_take,
      List.map_drop]

/-- **A step of the group**, and what is recorded of it. -/
theorem step_eq_some {e : Group.Step row.length} (h : step row u e = some u') :
    ∃ new, Stepped u.group e new u'.group ∧
      u'.jobs = u.kept e ++ new.map (fun task => (task, u.origin e)) ∧
      u'.executed = u.executed ++ (executor u.group e).toList.map (fun q => (u.origin e, q)) ∧
      u'.sent = u.sent ++ (new.filter isMessage).map fun _ => u.origin e := by
  obtain ⟨g, hg, rfl⟩ := Option.map_eq_some_iff.mp h
  obtain ⟨new, hs⟩ := stepped hg
  have hnew : g.tasks.drop (u.kept e).length = new := by
    rw [hs.tasks, ← map_fst_kept, List.drop_left' (List.length_map ..)]
  refine ⟨new, ?_, by rw [hnew], rfl, by rw [hnew]⟩
  have hgroup : g.tasks = ((u.kept e ++ new.map fun task => (task, u.origin e)).map Prod.fst) := by
    rw [hs.tasks, List.map_append, map_fst_kept, List.map_map]
    exact congrArg _ (List.map_id new).symm
  simp only [group, hnew]
  rw [← hgroup]
  exact hs

/-! ### What a task may cost -/

/-- What a task may still cost: `w` for each message that is sent, and `r q` for each command that the node
`q` executes. -/
def cost (w : ℕ) (r : Fin row.length → ℕ) : Task row.length → ℕ
  | .autoSend p _ i => (((others p).drop i).map fun q => w + r q).sum
  | .autoSendEach _ sock _ => ((sock.bind (find row)).toList.map fun q => w + r q).sum
  | .onWire _ q _ => r q
  | .inHand _ q _ => r q

/-- What a step costs at once. -/
def paid (w : ℕ) (r : Fin row.length → ℕ) (g : Group row.length) (e : Group.Step row.length)
    (new : List (Task row.length)) : ℕ :=
  ((executor g e).toList.map r).sum + w * (new.filter isMessage).length

/-- What the record says that a client command has cost. -/
def spent (w : ℕ) (r : Fin row.length → ℕ) (u : Traced row.length) (id : ℕ) : ℕ :=
  ((u.executed.filter fun x => x.1 = some id).map fun x => r x.2).sum + w * u.sent.count (some id)

/-- What a client command may cost. -/
def amount (w : ℕ) (r : Fin row.length → ℕ) : ℕ :=
  ((List.finRange row.length).map r).sum + w * (row.length - 1)

/-- A node and the other ones are all nodes. -/
theorem sum_others (p : Fin row.length) :
    r p + ((others p).map fun q => w + r q).sum = amount w r := by
  have herase : others p = (List.finRange row.length).erase p :=
    ((List.nodup_finRange row.length).erase_eq_filter p ▸ List.filter_congr fun q _ => by
      simp [bne, beq_eq_decide])
  have hsum := List.sum_map_erase r (List.mem_finRange p)
  have hlen : (others p).length = row.length - 1 := by
    rw [herase, List.length_erase_of_mem (List.mem_finRange p), List.length_finRange]
  rw [List.sum_map_add, amount, ← hsum, ← herase]
  rw [List.map_const', List.sum_replicate, hlen, smul_eq_mul]
  ring

/-- A client command starts within its amount. -/
theorem cost_started (p : Fin row.length) (x : Scan) :
    r p + ((started p x).map (cost w r)).sum ≤ amount w r := by
  rw [← sum_others p]
  unfold started
  cases x.autoSend with
  | none => simp
  | some com => exact le_of_eq (by simp [cost])

theorem isMessage_started (p : Fin row.length) (x : Scan) : (started p x).filter isMessage = [] := by
  unfold started
  cases x.autoSend with
  | none => rfl
  | some com => rfl

/-- The socket that a thread takes leads to the node at that place, if to any. -/
theorem cost_sock (hrow : (row.map Replica.peer).Nodup) (h : g.Meshed) {p : Fin row.length} {i : ℕ}
    {sock : Option Peer} (hsock : (g.servers p).replicaSock[i]? = some sock) :
    ((sock.bind (find row)).toList.map fun q => w + r q).sum
      ≤ ((others p)[i]?.toList.map fun q => w + r q).sum := by
  cases sock with
  | none => simp
  | some a =>
    obtain ⟨q, hq, rfl⟩ := Option.map_eq_some_iff.mp (h.sock p i a hsock)
    rw [Option.bind_some, find_peer hrow, hq]

/-- **A thread or a message** gives way to what it covers. -/
theorem paid_le (hrow : (row.map Replica.peer).Nodup) (h : g.Meshed) {index : ℕ} {t : Int}
    {connected : Bool} {new : List (Task row.length)} {task : Task row.length}
    (hs : Stepped g (.task index t connected) new g') (htask : g.tasks[index]? = some task) :
    paid w r g (.task index t connected) new + (new.map (cost w r)).sum ≤ cost w r task := by
  unfold paid
  cases hs with
  | @autoSend _ _ _ p com i sock hindex hi hsock =>
    obtain rfl := Option.some.inj (hindex.symm.trans htask)
    have hcost := cost_sock (w := w) (r := r) hrow h hsock
    -- the round covers the node that it takes, and the rest of the nodes
    have hdrop : ((others p).drop i).map (fun q => w + r q) =
        (others p)[i]?.toList.map (fun q => w + r q) ++ ((others p).drop (i + 1)).map fun q => w + r q := by
      rw [← List.map_append, ← List.drop_eq_getElem?_toList_append]
    simp only [executor, hindex, Option.bind_some, Option.toList_none, List.map_nil, List.sum_nil, cost,
      List.map_cons, List.sum_cons, hdrop, List.sum_append]
    have hmessages : ([.autoSendEach p sock com, .autoSend p com (i + 1)] :
        List (Task row.length)).filter isMessage = [] := rfl
    rw [hmessages, List.length_nil]
    omega
  | autoSendDone hindex =>
    obtain rfl := Option.some.inj (hindex.symm.trans htask)
    simp [executor, hindex]
  | @autoSendEach _ _ _ p sock com hindex =>
    obtain rfl := Option.some.inj (hindex.symm.trans htask)
    simp only [executor, hindex, Option.bind_some, Option.toList_none, List.map_nil, List.sum_nil, cost]
    -- a socket that is not connected sends nothing
    cases sock.bind (find row) with
    | none => simp
    | some q =>
      have hmessage : ([.onWire p q com] : List (Task row.length)).filter isMessage
          = [.onWire p q com] := rfl
      simp [hmessage, cost]
  | onWire hindex =>
    obtain rfl := Option.some.inj (hindex.symm.trans htask)
    simp [executor, hindex, isMessage, cost]
  | inHand hindex hx =>
    obtain rfl := Option.some.inj (hindex.symm.trans htask)
    -- the execution is paid for, and nothing is sent on
    obtain ⟨-, -, hsend⟩ := h.silent hindex hx
    simp [executor, hindex, started, hsend, cost]

/-! ### Runs -/

/-- What holds in a run: the group is a mesh, and no client command exceeds its amount. -/
structure Bounded (u : Traced row.length) : Prop where
  meshed : u.group.Meshed
  budget : ∀ (w : ℕ) (r : Fin row.length → ℕ), WithinBudget (cost w r)
    (fun id => if id < u.writes then amount w r else 0) (spent w r u) u.jobs

theorem writes_client {p : Fin row.length} {ss : Session} {com : Str} {t : Int} {connected : Bool}
    (h : Traced.step row u (.client p ss com t connected) = some u') : u'.writes = u.writes + 1 := by
  obtain ⟨g, -, rfl⟩ := Option.map_eq_some_iff.mp h
  rfl

theorem writes_task {index : ℕ} {t : Int} {connected : Bool}
    (h : Traced.step row u (.task index t connected) = some u') : u'.writes = u.writes := by
  obtain ⟨g, -, rfl⟩ := Option.map_eq_some_iff.mp h
  rfl

/-- The record of a step. -/
theorem spent_step {e : Group.Step row.length} {new : List (Task row.length)}
    (hexec : u'.executed = u.executed ++ (executor u.group e).toList.map (fun q => (u.origin e, q)))
    (hsent : u'.sent = u.sent ++ (new.filter isMessage).map fun _ => u.origin e) (id : ℕ) :
    spent w r u' id = spent w r u id + if u.origin e = some id then paid w r u.group e new else 0 := by
  unfold spent paid
  rw [hexec, hsent, List.filter_append, List.map_append, List.sum_append, List.count_append,
    List.map_const', List.count_replicate]
  cases executor u.group e with
  | none =>
    by_cases horigin : u.origin e = some id
    · simp [horigin]
      ring
    · simp [horigin]
  | some q =>
    by_cases horigin : u.origin e = some id
    · simp [horigin]
      ring
    · simp [horigin]

/-- **A step keeps the bound.** -/
theorem Bounded.step (hrow : (row.map Replica.peer).Nodup) (h : Bounded u) {e : Group.Step row.length}
    (hok : u.group.Replicating e) (hstep : Traced.step row u e = some u') : Bounded u' := by
  obtain ⟨new, hs, hjobs, hexec, hsent⟩ := step_eq_some hstep
  refine ⟨h.meshed.step hrow hok hs, fun w r id => ?_⟩
  rw [hjobs, spent_step hexec hsent]
  cases e with
  | client p ss com t connected =>
    rw [writes_client hstep]
    obtain ⟨x, rfl⟩ := hs.client_new
    -- the command brings the amount that its thread may cost
    have hpaid : paid w r u.group (.client p ss com t connected) (started p x)
        + ((started p x).map (cost w r)).sum ≤ amount w r := by
      have hcost := cost_started (w := w) (r := r) p x
      rw [paid, isMessage_started]
      simpa [executor] using hcost
    refine ((h.budget w r).issue (k := u.writes) hpaid id).trans ?_
    simp only [Option.some.injEq]
    split_ifs <;> omega
  | task index t connected =>
    rw [writes_task hstep]
    obtain ⟨task, htask⟩ := hs.task_mem
    -- what a task becomes is charged to the command that the task is due to
    have hpaid := paid_le (w := w) (r := r) hrow h.meshed hs htask
    have hmap : (u.jobs[index]?).map Prod.fst = some task := by
      rw [← List.getElem?_map]
      exact htask
    obtain ⟨⟨task', origin⟩, hjob, rfl⟩ := Option.map_eq_some_iff.mp hmap
    have horigin : u.origin (.task index t connected) = origin := by
      show u.jobs[index]?.bind Prod.snd = origin
      rw [hjob, Option.bind_some]
    rw [horigin]
    exact (h.budget w r).move hjob hpaid id

/-- **A run keeps the bound.** -/
theorem Bounded.run (hrow : (row.map Replica.peer).Nodup) (h : Bounded u)
    (hrun : Run row Replicating u u') : Bounded u' := by
  induction hrun with
  | refl => exact h
  | tail _ hok hstep ih => exact ih.step hrow hok hstep

/-- Nothing is recorded at the start. -/
theorem bounded_start (h : g.Meshed) : Bounded (start g) := by
  have hgroup : (start g).group = g := by
    have htasks : (g.tasks.map fun task => (task, (none : Option ℕ))).map Prod.fst = g.tasks := by
      rw [List.map_map]
      exact List.map_id g.tasks
    unfold group start
    rw [htasks]
  refine ⟨by rwa [hgroup], fun w r id => ?_⟩
  show 0 + w * 0 + outstanding (cost w r) id (g.tasks.map fun task => (task, none)) ≤ _
  rw [outstanding_map, if_neg (by simp)]
  exact Nat.zero_le _

/-! ### What a client command causes -/

theorem Bounded.executed_le (h : Bounded u) (id : ℕ) (q : Fin row.length) :
    u.executed.count (some id, q) ≤ 1 := by
  have hspent := (h.budget 0 fun q' => if q' = q then 1 else 0).spent_le (i := id) fun _ => Nat.zero_le _
  have hcount : spent 0 (fun q' => if q' = q then 1 else 0) u id = u.executed.count (some id, q) := by
    unfold spent
    rw [zero_mul, add_zero]
    induction u.executed with
    | nil => rfl
    | cons x l ih =>
      rw [List.count_cons, ← ih, List.filter_cons]
      by_cases hid : x.1 = some id <;> by_cases hq : x.2 = q <;> simp [hid, hq, Prod.ext_iff, add_comm]
  have hamount : amount 0 (fun q' : Fin row.length => if q' = q then 1 else 0) = 1 := by
    rw [amount, zero_mul, add_zero, ← Fin.sum_univ_def, Finset.sum_ite_eq', if_pos (Finset.mem_univ q)]
  rw [hcount, hamount] at hspent
  exact hspent.trans (by split_ifs <;> omega)

theorem Bounded.sent_le (h : Bounded u) (id : ℕ) : u.sent.count (some id) ≤ row.length - 1 := by
  have hspent := (h.budget 1 fun _ => 0).spent_le (i := id) fun _ => Nat.zero_le _
  have hcount : spent 1 (fun _ => 0) u id = u.sent.count (some id) := by simp [spent]
  have hamount : amount 1 (fun _ : Fin row.length => 0) = row.length - 1 := by simp [amount]
  rw [hcount, hamount] at hspent
  exact hspent.trans (by split_ifs <;> omega)

/-- A message in hand gives way to nothing. -/
theorem inHand_new (h : g.Meshed) {index : ℕ} {t : Int} {connected : Bool} {new : List (Task row.length)}
    {p q : Fin row.length} {com : Str} (hs : Stepped g (.task index t connected) new g')
    (htask : g.tasks[index]? = some (.inHand p q com)) : new = [] := by
  cases hs with
  | inHand hindex hx =>
    obtain ⟨-, -, hsend⟩ := h.silent hindex hx
    rw [started, hsend, Option.toList_none, List.map_nil]
  | autoSend hindex => simp [htask] at hindex
  | autoSendDone => rfl
  | autoSendEach hindex => simp [htask] at hindex
  | onWire hindex => simp [htask] at hindex

/-- **A replicated write never circulates.** -/
theorem never_circulates {lines : List Str} {line : Str}
    (hread : Replication.readConfig lines = some (line, row))
    (hreach : ∀ r ∈ row, Reachable r.peer) (hrow : (row.map Replica.peer).Nodup) (hg : Joined line row g)
    (hrun : Run row Replicating (start g) u) :
    (∀ id q, u.executed.count (some id, q) ≤ 1) ∧
    (∀ id, u.sent.count (some id) ≤ row.length - 1) ∧
    ∀ index t connected p q com u', u.jobs[index]?.map Prod.fst = some (.inHand p q com) →
      step row u (.task index t connected) = some u' →
      u'.jobs = u.jobs.eraseIdx index ∧ u'.sent = u.sent := by
  have hu := (bounded_start (hg.meshed hread hreach hrow)).run hrow hrun
  refine ⟨hu.executed_le, hu.sent_le, fun index t connected p q com u' htask hstep => ?_⟩
  obtain ⟨new, hs, hjobs, -, hsent⟩ := step_eq_some hstep
  rw [← List.getElem?_map] at htask
  obtain rfl := inHand_new hu.meshed hs htask
  constructor
  · rw [hjobs, List.map_nil, List.append_nil]
    rfl
  · rw [hsent, List.filter_nil, List.map_nil, List.append_nil]

/-! ### Two replicas -/

/-- The configuration of two replicas. -/
def pairLines : List Str :=
  [lit "replicanumber 2", lit "replica 10.0.0.1 5001", lit "replica 10.0.0.2 5002"]

/-- Two replicas that have greeted each other. -/
def pairJoined : Group pairRow.length where
  servers := pair.servers
  links _ _ := {}
  tasks := [.onWire first second (lit "replicaaccept"), .onWire second first (lit "replicaaccept")]

theorem joined_pair : Joined (lit "replicanumber 2") pairRow pairJoined := by
  refine ⟨⟨fun p => if p = first then [pairRow[1].peer] else [pairRow[0].peer], fun p => ?_, ?_⟩,
    fun _ _ => rfl⟩
  · rcases eq_first_or_second p with rfl | rfl
    · exact ⟨{ w := World.fresh 5001 }, {}, {},
        [(lit "replicanumber 2", 0), (lit "replica 10.0.0.2 5002", 0)], ⟨rfl, rfl, rfl, rfl⟩, rfl, rfl⟩
    · exact ⟨{ w := World.fresh 5002 }, {}, {},
        [(lit "replicanumber 2", 0), (lit "replica 10.0.0.1 5001", 0)], ⟨rfl, rfl, rfl, rfl⟩, rfl, rfl⟩
  · exact List.Perm.of_eq rfl

/-- A thread that takes its next socket, or that sends, meets the conditions. -/
theorem replicating_thread {index : ℕ} {t : Int} {connected : Bool} {task : Task row.length}
    (htask : g.tasks[index]? = some task)
    (hthread : ∀ p q com, task ≠ .onWire p q com ∧ task ≠ .inHand p q com) :
    g.Replicating (.task index t connected) where
  write := trivial
  unredirected p q com hindex :=
    absurd (Option.some.inj (htask.symm.trans hindex)) (hthread p q com).2
  oneAtATime p q com hindex :=
    absurd (Option.some.inj (htask.symm.trans hindex)) (hthread p q com).1

/-- A message that is the only one in hand of its connection meets the conditions. -/
theorem replicating_onWire {index : ℕ} {t : Int} {connected : Bool} {p q : Fin row.length} {com : Str}
    (tasks : List (Task row.length)) (htasks : g.tasks = tasks)
    (htask : tasks[index]? = some (.onWire p q com)) (hfree : ∀ com', .inHand p q com' ∉ tasks) :
    g.Replicating (.task index t connected) where
  write := trivial
  unredirected _ _ _ hindex := by
    rw [htasks, htask] at hindex
    exact absurd (Option.some.inj hindex) (by simp)
  oneAtATime p' q' com' hindex := by
    rw [htasks] at hindex ⊢
    obtain ⟨rfl, rfl, -⟩ := Task.onWire.inj (Option.some.inj (htask.symm.trans hindex))
    exact hfree

/-- A message with a harmless reply meets the conditions. -/
theorem replicating_inHand {index : ℕ} {t : Int} {connected : Bool} {p q : Fin row.length}
    {com msg : Str} (htask : g.tasks[index]? = some (.inHand p q com))
    (hreply : (execute (commandPart com) (toU8 (authority (g.links p q) com)) t (g.servers q).w).map
      Prod.fst = some msg) (hmsg : ¬ lit "hashval" <:+: msg) :
    g.Replicating (.task index t connected) where
  write := trivial
  unredirected p' q' com' hindex r hr := by
    obtain ⟨rfl, rfl, rfl⟩ := Task.inHand.inj (Option.some.inj (htask.symm.trans hindex))
    rw [hr, Option.map_some, Option.some.injEq] at hreply
    rwa [hreply]
  oneAtATime _ _ _ hindex := absurd (Option.some.inj (htask.symm.trans hindex)) (by simp)

/-- A client of the first replica sends a command, whose threads send it on; the second replica handles
the greeting and the command, and the first one the other greeting. -/
def relay : List (Group.Step pairRow.length) :=
  .client first {} (lit "make k v") 0 true ::
    [2, 2, 2, 0, 2, 1, 1, 0, 0].map fun index => .task index 0 true

/-- The steps of a list. -/
def runSteps (row : List Replica) :
    List (Group.Step row.length) → Traced row.length → Option (Traced row.length)
  | [], u => some u
  | e :: es, u => (step row u e).bind (runSteps row es)

/-- Steps that all meet a condition. -/
def AllMeet (row : List Replica) (ok : Group row.length → Group.Step row.length → Prop) :
    List (Group.Step row.length) → Traced row.length → Prop
  | [], _ => True
  | e :: es, u => ok u.group e ∧ ∀ u', step row u e = some u' → AllMeet row ok es u'

theorem Run.of_runSteps {ok : Group row.length → Group.Step row.length → Prop}
    {es : List (Group.Step row.length)} {u₀ u u' : Traced row.length} (h : Run row ok u₀ u)
    (hok : AllMeet row ok es u) (hrun : runSteps row es u = some u') : Run row ok u₀ u' := by
  induction es generalizing u with
  | nil =>
    obtain rfl := Option.some.inj hrun
    exact h
  | cons e es ih =>
    obtain ⟨u₁, hstep, hrun⟩ := Option.bind_eq_some_iff.mp hrun
    exact ih (h.tail hok.1 hstep) (hok.2 u₁ hstep) hrun

theorem AllMeet.cons {ok : Group row.length → Group.Step row.length → Prop} {e : Group.Step row.length}
    {es : List (Group.Step row.length)} {u u' : Traced row.length} (hok : ok u.group e)
    (hstep : step row u e = some u') (h : AllMeet row ok es u') : AllMeet row ok (e :: es) u :=
  ⟨hok, fun _ hstep' => Option.some.inj (hstep.symm.trans hstep') ▸ h⟩

theorem relay_replicating : AllMeet pairRow Replicating relay (start pairJoined) := by
  have hmake : ¬ lit "hashval" <:+: lit "OK!" := by decide
  have hgreeting : ¬ lit "hashval" <:+: magic (lit "replicaaccept") := by decide
  have hclient : (start pairJoined).group.Replicating (.client first {} (lit "make k v") 0 true) := by
    refine ⟨rfl, fun r hr => ?_, trivial⟩
    have hreply : (execute (commandPart (lit "make k v")) (toU8 (authority {} (lit "make k v"))) 0
        (pair.servers first).w).map Prod.fst = some (lit "OK!") := rfl
    have hfst := hreply.symm.trans (congrArg (Option.map Prod.fst) hr)
    rwa [← Option.some.inj hfst]
  refine .cons hclient rfl ?_
  -- the threads of the client's command
  refine .cons (replicating_thread rfl fun _ _ _ => by simp) rfl ?_
  refine .cons (replicating_thread rfl fun _ _ _ => by simp) rfl ?_
  refine .cons (replicating_thread rfl fun _ _ _ => by simp) rfl ?_
  -- the greeting, and then the command, at the second replica
  refine .cons (replicating_onWire [.onWire first second (lit "replicaaccept"),
    .onWire second first (lit "replicaaccept"), .onWire first second (lit "make k v")] rfl rfl
    (by simp)) rfl ?_
  refine .cons (replicating_inHand rfl rfl hgreeting) rfl ?_
  refine .cons (replicating_onWire [.onWire second first (lit "replicaaccept"),
    .onWire first second (lit "make k v")] rfl rfl (by simp)) rfl ?_
  refine .cons (replicating_inHand rfl rfl hmake) rfl ?_
  -- the greeting at the first replica
  refine .cons (replicating_onWire [.onWire second first (lit "replicaaccept")] rfl rfl (by simp)) rfl ?_
  refine .cons (replicating_inHand rfl rfl hgreeting) rfl ?_
  exact trivial

/-- One write, which is sent once and executed once at each replica. -/
theorem never_circulates_make : ∃ u, runSteps pairRow relay (start pairJoined) = some u ∧
    u.jobs = [] ∧
    u.executed = [(some 0, first), (none, second), (some 0, second), (none, first)] ∧
    u.sent = [some 0] ∧ u.executed.count (some 0, second) ≤ 1 ∧ u.sent.count (some 0) ≤ 1 := by
  obtain ⟨u, hrun, hjobs, hexec, hsent⟩ : ∃ u, runSteps pairRow relay (start pairJoined) = some u ∧
      u.jobs = [] ∧
      u.executed = [(some 0, first), (none, second), (some 0, second), (none, first)] ∧
      u.sent = [some 0] := ⟨_, rfl, rfl, rfl, rfl⟩
  have hread : Replication.readConfig pairLines = some (lit "replicanumber 2", pairRow) := rfl
  have hreach : ∀ r ∈ pairRow, Reachable r.peer := by
    simp only [pairRow, List.forall_mem_cons, List.not_mem_nil, IsEmpty.forall_iff, implies_true, and_true]
    exact ⟨⟨by decide, by decide⟩, ⟨by decide, by decide⟩⟩
  obtain ⟨hexecuted, hsents, -⟩ := never_circulates hread hreach (by decide) joined_pair
    ((Run.refl _).of_runSteps relay_replicating hrun)
  exact ⟨u, hrun, hjobs, hexec, hsent, hexecuted 0 second, hsents 0⟩

end Traced

end MuseKv
