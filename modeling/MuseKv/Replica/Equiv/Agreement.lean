import MuseKv.General.Replication
import MuseKv.Replica.Equiv.Build
import MuseKv.Replica.Equiv.Step
import MuseKv.Server.Equiv.Write

/-!
# The replicas of a group agree

A group refines the replicated store of `General.Replicas`: the command of a client is an update that
is issued, a message that a replica executes is an update that is applied, and every other step moves
a message on (`Settled.step`).  What a message does where it is applied is what its command did where
it was issued, as long as no authority shows in it (`Keeps`).

* **`agree_of_serial`**: one node is written to, and each message is handled before the next command.
* **`agree_of_concurrent`**: every node is written to, and no command is handled while a message about
  its key is on its way.
-/

namespace MuseKv

open General Kvstore Command Distribute

/-- A text that a replica executes as it stands. -/
structure Message (com : Str) : Prop where
  clean : backspace ∉ com
  sendable : Sendable (words com)

/-- Whether a message names a key. -/
def Named (com : Str) : Prop := 2 ≤ (words com).length

instance : DecidablePred Named := fun _ => inferInstanceAs (Decidable (_ ≤ _))

/-- What the messages of a group do. -/
def updates : Updates Str (Option Kv) Str where
  key com := keyOf (words com)
  effect com node := effect (words com) node
  ok com node := Unguarded node ∧ ∃ r, keyResult (words com) 0 0 node = some r ∧ ¬ Marked r.1

/-- What a replica answers to a message, and does, at any time. -/
theorem Message.again {com : Str} {node : Option Kv} (hm : Message com) (hnode : Unguarded node)
    (hok : Named com → updates.ok com node) :
    ∃ a, (∃ msg, keyResult (words com) 0 0 node = some (msg, a) ∧ ¬ Marked msg) ∧
      ∀ t, ∃ msg, keyResult (words com) 0 t node = some (msg, a) ∧ ¬ Marked msg := by
  have hraise : ¬ Raises (words com) 0 node := fun h => absurd h.1 (by decide)
  by_cases hnamed : Named com
  · obtain ⟨-, ⟨msg, a⟩, hresult, hmsg⟩ := hok hnamed
    exact ⟨a, ⟨msg, hresult, hmsg⟩, fun t =>
      keyResult_again hm.sendable hnode hraise msg a hresult hmsg⟩
  · have hplain : ¬ Marked invalidCommand := not_marked (by decide) (by decide)
    have hresult : ∀ t, keyResult (words com) 0 t node = reply invalidCommand := fun t =>
      keyResult_of_length (not_le.mp hnamed)
    exact ⟨.keep, ⟨_, hresult 0, hplain⟩, fun t => ⟨_, hresult t, hplain⟩⟩

namespace Group

variable {row : List Replica} {g g' : Group row.length}

/-! ### What is on its way -/

/-- A task whose message is for another node than the one it came from. -/
def Proper : Task row.length → Prop
  | .autoSend _ com _ => Message com
  | .autoSendEach p sock com => sock ∈ socks p ∧ Message com
  | .onWire p q com => q ≠ p ∧ Message com
  | .inHand p q com => q ≠ p ∧ Message com

/-- The group of a row at any time: the setup is as it was, and no entry has a level. -/
structure Standing (g : Group row.length) : Prop where
  member : ∀ p, Member row (g.servers p) p
  link : ∀ p q, q ≠ p → g.links p q = { auth := 0, autoSendYes := false }
  proper : ∀ task ∈ g.tasks, Proper task
  unguarded : ∀ p k, Unguarded ((g.servers p).w.h.findNode k)

/-- The commands that a task of a row will have handled at a node. -/
def owed (q : Fin row.length) : Task row.length → List Str
  | .autoSend p com i => ((others p).drop i).filterMap fun q' => if q' = q then some com else none
  | .autoSendEach _ sock com => if sock.bind (find row) = some q then [com] else []
  | .onWire _ q' com => if q' = q then [com] else []
  | .inHand _ q' com => if q' = q then [com] else []

theorem due_eq_owed (hrow : WellFormedRow row)
    (hsock : ∀ p, (g.servers p).replicaSock = socks p) (q : Fin row.length) :
    g.due q = owed q := by
  funext task
  cases task with
  | autoSend p com i =>
    rw [due, owed, hsock, socks, ← List.map_drop, List.filterMap_map]
    congr 1
    funext q'
    rw [Function.comp_apply, Option.bind_some, find_peer hrow.nodup]
    simp only [Option.some.injEq]
  | _ => rfl

theorem filterMap_single {α β : Type} [DecidableEq α] {l : List α} (hl : l.Nodup) (a : α) (b : β) :
    (l.filterMap fun x => if x = a then some b else none) = if a ∈ l then [b] else [] := by
  induction l with
  | nil => rfl
  | cons x l ih =>
    obtain ⟨hx, hl⟩ := List.nodup_cons.mp hl
    rw [List.filterMap_cons, ih hl]
    by_cases hxa : x = a
    · subst hxa
      simp [hx]
    · have hax : a ≠ x := fun h => hxa h.symm
      simp [hxa, hax]

/-- A write has its message handled once at every other node. -/
theorem owed_autoSend (p q : Fin row.length) (com : Str) :
    owed q (.autoSend p com 0) = if q = p then [] else [com] := by
  rw [owed, List.drop_zero, filterMap_single (nodup_others p)]
  by_cases hqp : q = p
  · rw [if_neg (fun h => mem_others.mp h hqp), if_pos hqp]
  · rw [if_pos (mem_others.mpr hqp), if_neg hqp]

/-- A message, if it names a key. -/
def named (com : Str) : Multiset Str := (([com] : List Str) : Multiset Str).filter Named

theorem named_of_named {com : Str} (h : Named com) : named com = {com} := by
  rw [named, Multiset.coe_singleton, Multiset.filter_singleton, if_pos h]

theorem named_of_not_named {com : Str} (h : ¬ Named com) : named com = 0 := by
  rw [named, Multiset.coe_singleton, Multiset.filter_singleton, if_neg h]
  rfl

/-- The messages about keys that are on their way to a node. -/
def pendingOf (tasks : List (Task row.length)) (q : Fin row.length) : Multiset Str :=
  ((tasks.flatMap (owed q) : List Str) : Multiset Str).filter Named

theorem mem_pendingOf {tasks : List (Task row.length)} {q : Fin row.length} {m : Str} :
    m ∈ pendingOf tasks q ↔ m ∈ tasks.flatMap (owed q) ∧ Named m := by
  rw [pendingOf, Multiset.mem_filter, Multiset.mem_coe]

theorem pendingOf_append (l l' : List (Task row.length)) (q : Fin row.length) :
    pendingOf (l ++ l') q = pendingOf l q + pendingOf l' q := by
  rw [pendingOf, List.flatMap_append, ← Multiset.coe_add, Multiset.filter_add]
  rfl

/-- The thread that a write starts owes the message to every other node. -/
theorem pendingOf_autoSend (tasks : List (Task row.length)) (p q : Fin row.length) (com : Str) :
    pendingOf (tasks ++ [.autoSend p com 0]) q = pendingOf tasks q + if q = p then 0 else named com := by
  rw [pendingOf_append]
  congr 1
  rw [pendingOf, List.flatMap_singleton, owed_autoSend]
  split_ifs
  · rfl
  · rfl

theorem pendingOf_getElem {tasks : List (Task row.length)} {index : ℕ} {task : Task row.length}
    (h : tasks[index]? = some task) (q : Fin row.length) :
    pendingOf tasks q = pendingOf [task] q + pendingOf (tasks.eraseIdx index) q := by
  obtain ⟨hlt, rfl⟩ := List.getElem?_eq_some_iff.mp h
  have hperm := (List.getElem_cons_eraseIdx_perm hlt).symm
  rw [← pendingOf_append, List.singleton_append, pendingOf, pendingOf,
    Multiset.coe_eq_coe.mpr (hperm.flatMap_right (owed q))]

/-- A task that gives way to tasks which owe the same changes nothing on its way. -/
theorem pendingOf_move {tasks new : List (Task row.length)} {index : ℕ} {task : Task row.length}
    (h : tasks[index]? = some task) {q : Fin row.length}
    (hnew : owed q task = new.flatMap (owed q)) :
    pendingOf (tasks.eraseIdx index ++ new) q = pendingOf tasks q := by
  rw [pendingOf_append, pendingOf_getElem h, add_comm]
  congr 1
  rw [pendingOf, pendingOf, ← hnew, List.flatMap_singleton]

/-- The replicated store that a group is. -/
def abs (g : Group row.length) : Replicas (Fin row.length) Str (Option Kv) Str where
  store q k := (g.servers q).w.h.findNode k
  pending := pendingOf g.tasks

/-- Groups that hold the same, with the same messages on their way. -/
theorem settling_of_same (h : Replicas.Settling updates (abs g))
    (hstore : ∀ q k, (g'.servers q).w.h.findNode k = (g.servers q).w.h.findNode k)
    (hpending : ∀ q, pendingOf g'.tasks q = pendingOf g.tasks q) :
    Replicas.Settling updates (abs g') := by
  have habs : abs g' = abs g := by
    rw [abs, abs]
    congr 1
    · funext q k
      exact hstore q k
    · funext q
      exact hpending q
  rwa [habs]

/-! ### The steps -/

/-- A member refuses no key. -/
theorem Member.not_refused {s : Server} {p : Fin row.length} (h : Member row s p) (ws : List Str) :
    refused s.w.h ws = false := by
  rw [← Bool.not_eq_true, refused_iff]
  rintro ⟨k, -, hk⟩
  have hbounds := Hash.hashFunc_bounds k
  rw [notHere, h.startNum, h.endNum, Bool.or_eq_true, decide_eq_true_eq, decide_eq_true_eq] at hk
  omega

/-- A member stays one when its table changes within its bounds. -/
theorem Member.of_world {s : Server} {p : Fin row.length} {w' : World} (h : Member row s p)
    (hstart : w'.h.startNum = s.w.h.startNum) (hend : w'.h.endNum = s.w.h.endNum) :
    Member row { s with w := w' } p :=
  ⟨h.replicaNum, h.replicaSock, hstart.trans h.startNum, hend.trans h.endNum⟩

/-- A command that leaves at every replica what it leaves where it is executed first: its reply shows
no marked text, and it gives its key no level above `0`. -/
structure Keeps (s : Server) (ss : Session) (com : Str) (t : Int) : Prop where
  shows : ∀ x, shown (words (commandPart com)) (toU8 (authority ss com)) t s.w.h = some x → ¬ x.Marked
  levels : ¬ Raises (words (commandPart com)) (toU8 (authority ss com))
    (s.w.h.findNode (keyOf (words (commandPart com))))

/-- No message on its way names the key of a command. -/
def Free (g : Group row.length) (com : Str) : Prop :=
  ∀ q, ∀ m ∈ g.inFlight q, ∀ k, (words (commandPart com))[1]? = some k → (words m)[1]? ≠ some k

/-- What is true of a group that runs: the setup is as it was, and the nodes are about to agree. -/
structure Settled (g : Group row.length) : Prop where
  standing : Standing g
  settling : Replicas.Settling updates (abs g)

theorem inFlight_eq (hrow : WellFormedRow row) (h : Standing g) (q : Fin row.length) :
    g.inFlight q = g.tasks.flatMap (owed q) := by
  rw [inFlight, due_eq_owed hrow fun p => (h.member p).replicaSock]

/-- The key of a text that names one. -/
theorem getElem?_one {com : Str} (h : Named com) : (words com)[1]? = some (keyOf (words com)) := by
  rw [keyOf, List.getD_eq_getElem?_getD, List.getElem?_eq_getElem h, Option.getD_some]

section Action

/-! A node takes an action under one key; the tasks change as they may. -/

variable {q : Fin row.length} {w' : World} {a : KeyAction} {k₀ : Str} {tasks : List (Task row.length)}

theorem store_action
    (hfind : ∀ k, w'.h.findNode k =
      if k = k₀ then a.run ((g.servers q).w.h.findNode k₀) else (g.servers q).w.h.findNode k)
    (r : Fin row.length) (k : Str) :
    ((Function.update g.servers q { g.servers q with w := w' }) r).w.h.findNode k =
      if r = q ∧ k = k₀ then a.run ((g.servers q).w.h.findNode k₀)
      else (g.servers r).w.h.findNode k := by
  by_cases hr : r = q
  · subst hr
    rw [Function.update_self, hfind]
    simp only [true_and]
  · rw [Function.update_of_ne hr, if_neg fun h => hr h.1]

theorem store_keep (hfind : ∀ k, w'.h.findNode k = if k = k₀ then
      KeyAction.keep.run ((g.servers q).w.h.findNode k₀) else (g.servers q).w.h.findNode k)
    (r : Fin row.length) (k : Str) :
    ((Function.update g.servers q { g.servers q with w := w' }) r).w.h.findNode k =
      (g.servers r).w.h.findNode k := by
  refine (store_action hfind r k).trans ?_
  split_ifs with hrk
  · rw [hrk.1, hrk.2]
    rfl
  · rfl

theorem Standing.action (h : Standing g)
    (hfind : ∀ k, w'.h.findNode k =
      if k = k₀ then a.run ((g.servers q).w.h.findNode k₀) else (g.servers q).w.h.findNode k)
    (hstart : w'.h.startNum = (g.servers q).w.h.startNum)
    (hend : w'.h.endNum = (g.servers q).w.h.endNum)
    (ha : Unguarded (a.run ((g.servers q).w.h.findNode k₀))) (htasks : ∀ task ∈ tasks, Proper task) :
    Standing ⟨Function.update g.servers q { g.servers q with w := w' }, g.links, tasks⟩ := by
  refine ⟨fun r => ?_, h.link, htasks, fun r k => ?_⟩
  · by_cases hr : r = q
    · subst hr
      dsimp only
      rw [Function.update_self]
      exact (h.member r).of_world hstart hend
    · dsimp only
      rw [Function.update_of_ne hr]
      exact h.member r
  · dsimp only
    rw [store_action hfind]
    split_ifs
    · exact ha
    · exact h.unguarded r k

end Action

/-- A client's command starts one thread, which has its rounds ahead. -/
theorem Settled.started_eq (h : Settled g) {p : Fin row.length} {ss : Session} {com : Str} {t : Int}
    {connected : Bool} (hwrite : PlainWrite com) (hsend : ss.autoSendYes = true)
    (hkeeps : Keeps (g.servers p) ss com t) {x : Scan}
    (hx : scanAndSend (g.servers p) ss com t connected = some x) :
    started p x = [.autoSend p (commandPart com) 0] := by
  have hws := hwrite.sendable
  have hhere := (h.standing.member p).not_refused (words (commandPart com))
  obtain ⟨msg, a, w', -, -, -, -, -, rfl⟩ := scanAndSend_write hws hhere
    (fun msg w' hexec => not_marked_of_shown hws hhere hkeeps.shows hexec) hx
  have hnum : (g.servers p).replicaNum ≠ 0 := by
    have hpos := p.pos
    rw [(h.standing.member p).replicaNum]
    omega
  simp only [hsend, hwrite.1, Bool.true_and, decide_true, ne_eq, hnum, not_false_eq_true, if_true,
    started, Option.toList_some, List.map_singleton]

/-- **A client's command** is an update that is issued. -/
theorem Settled.client (hrow : WellFormedRow row) (h : Settled g) {p : Fin row.length}
    {ss : Session} {com : Str} {t : Int} {connected : Bool} (hwrite : PlainWrite com)
    (hsend : ss.autoSendYes = true) (hkeeps : Keeps (g.servers p) ss com t) (hfree : g.Free com)
    {x : Scan} (hx : scanAndSend (g.servers p) ss com t connected = some x) :
    Settled { g with
      servers := Function.update g.servers p x.server
      tasks := g.tasks ++ started p x } := by
  have hws := hwrite.sendable
  have hhere := (h.standing.member p).not_refused (words (commandPart com))
  have hstarted := h.started_eq hwrite hsend hkeeps hx
  obtain ⟨msg, a, w', hresult, hmsg, hfind, hstart, hend, rfl⟩ := scanAndSend_write hws hhere
    (fun msg w' hexec => not_marked_of_shown hws hhere hkeeps.shows hexec) hx
  have hnode := h.standing.unguarded p (keyOf (words (commandPart com)))
  obtain ⟨msg₀, hresult₀, hmsg₀⟩ :=
    keyResult_again (u := 0) hws hnode hkeeps.levels msg a hresult hmsg
  simp only [hstarted]
  refine ⟨h.standing.action hfind hstart hend (keyResult_unguarded hws hnode hresult₀ hmsg₀) ?_, ?_⟩
  · intro task htask
    rcases List.mem_append.mp htask with htask | htask
    · exact h.standing.proper task htask
    · rw [List.mem_singleton.mp htask]
      exact ⟨not_mem_commandPart, hws⟩
  have hpending := fun q => pendingOf_autoSend g.tasks p q (commandPart com)
  by_cases hnamed : Named (commandPart com)
  · refine h.settling.write (p := p) (m := commandPart com) ⟨?_, ?_, ?_, ?_, ?_, ?_⟩
    · intro q m hm hkey
      obtain ⟨hmem, hm⟩ := mem_pendingOf.mp hm
      rw [← inFlight_eq hrow h.standing] at hmem
      refine hfree q m hmem _ (getElem?_one hnamed) ?_
      rw [getElem?_one hm]
      exact congrArg some hkey
    · exact ⟨hnode, (msg₀, a), hresult₀, hmsg₀⟩
    · exact (store_action hfind p _).trans ((if_pos ⟨rfl, rfl⟩).trans (effect_eq hresult₀).symm)
    · exact fun q k hne => (store_action hfind q k).trans
        (if_neg fun h => hne.elim (fun hq => hq h.1) fun hk => hk h.2)
    · exact (hpending p).trans (by rw [if_pos rfl, add_zero]; rfl)
    · intro q hq
      refine (hpending q).trans ?_
      rw [if_neg hq, named_of_named hnamed, add_comm, Multiset.singleton_add]
      rfl
  · -- a text that names no key changes nothing, and is no update
    rw [keyResult_of_length (not_le.mp hnamed)] at hresult
    obtain ⟨-, rfl⟩ := Prod.mk.inj (Option.some.inj hresult)
    refine settling_of_same h.settling (store_keep hfind) fun q => ?_
    rw [hpending, named_of_not_named hnamed, ite_self, add_zero]

/-- A step that only moves a message on. -/
theorem Settled.move (h : Settled g) {index : ℕ} {task : Task row.length}
    {new : List (Task row.length)} (hindex : g.tasks[index]? = some task)
    (hproper : ∀ task ∈ new, Proper task) (howed : ∀ q, owed q task = new.flatMap (owed q)) :
    Settled { g with tasks := g.tasks.eraseIdx index ++ new } := by
  refine ⟨⟨h.standing.member, h.standing.link, fun task htask => ?_, h.standing.unguarded⟩,
    settling_of_same h.settling (fun _ _ => rfl) fun q => pendingOf_move hindex (howed q)⟩
  rcases List.mem_append.mp htask with htask | htask
  · exact h.standing.proper task (List.mem_of_mem_eraseIdx htask)
  · exact hproper task htask

/-- **A message that a replica executes** is an update that is applied. -/
theorem Settled.inHand (h : Settled g) {index : ℕ} {p q : Fin row.length} {com : Str}
    {t : Int} {connected : Bool} {x : Scan} (hindex : g.tasks[index]? = some (.inHand p q com))
    (hx : scanAndSend (g.servers q) (g.links p q) com t connected = some x) :
    Settled
      { servers := Function.update g.servers q x.server
        links := Function.update g.links p (Function.update (g.links p) q x.session)
        tasks := g.tasks.eraseIdx index ++ started q x } := by
  obtain ⟨hqp, hm⟩ := h.standing.proper _ (List.mem_of_getElem? hindex)
  have hnode := h.standing.unguarded q (keyOf (words com))
  -- only node `q` still had to get the message
  have hpending : ∀ r, pendingOf g.tasks r =
      pendingOf (g.tasks.eraseIdx index) r + if r = q then named com else 0 := by
    intro r
    rw [pendingOf_getElem hindex, add_comm]
    congr 1
    rw [pendingOf, List.flatMap_singleton, owed]
    by_cases hr : r = q
    · rw [if_pos hr.symm, if_pos hr]
      rfl
    · rw [if_neg fun heq => hr heq.symm, if_neg hr]
      rfl
  -- what the message does to the node does not depend on when it is executed
  obtain ⟨a, ⟨msg₀, hresult₀, hmsg₀⟩, hagain⟩ := hm.again hnode fun hnamed => by
    have hmem : com ∈ (abs g).pending q := by
      refine mem_pendingOf.mpr ⟨List.mem_flatMap.mpr ⟨_, List.mem_of_getElem? hindex, ?_⟩, hnamed⟩
      rw [owed, if_pos rfl]
      exact List.mem_singleton_self com
    exact h.settling.ok hmem
  obtain ⟨msg, hresult, hmsg⟩ := hagain t
  -- the connection has authority `0`, and what it brings is not sent on
  have hlink := h.standing.link p q hqp
  have hcut := commandPart_of_not_mem hm.clean
  have hauth : authority (g.links p q) com = 0 := by
    rw [authority, if_neg hm.clean, hlink]
  have hhere := (h.standing.member q).not_refused (words com)
  obtain ⟨msg', a', w', hresult', -, hfind, hstart, hend, rfl⟩ := scanAndSend_write
    (by rw [hcut]; exact hm.sendable) (by rw [hcut]; exact hhere) (by
      rw [hcut, hauth]
      intro msg' w' hexec
      obtain ⟨a', hresult', -⟩ := findNode_of_write hm.sendable hhere hexec
      obtain ⟨rfl, -⟩ := Prod.mk.inj (Option.some.inj (hresult'.symm.trans hresult))
      exact hmsg) hx
  rw [hcut, hauth] at hresult'
  obtain ⟨-, rfl⟩ := Prod.mk.inj (Option.some.inj (hresult'.symm.trans hresult))
  rw [hcut] at hfind
  simp only [hlink, Bool.false_and, Bool.false_eq_true, if_false, started, Option.toList_none,
    List.map_nil, List.append_nil]
  have hlinks : Function.update g.links p (Function.update (g.links p) q
      { auth := 0, autoSendYes := false }) = g.links := by
    rw [← hlink, Function.update_eq_self, Function.update_eq_self]
  rw [hlinks]
  refine ⟨h.standing.action hfind hstart hend
    (keyResult_unguarded hm.sendable hnode hresult₀ hmsg₀) fun task htask =>
      h.standing.proper task (List.mem_of_mem_eraseIdx htask), ?_⟩
  by_cases hnamed : Named com
  · refine h.settling.deliver (q := q) (m := com) ⟨?_, ?_, ?_, ?_⟩
    · exact (store_action hfind q _).trans ((if_pos ⟨rfl, rfl⟩).trans (effect_eq hresult₀).symm)
    · exact fun r k hne => (store_action hfind r k).trans
        (if_neg fun h => hne.elim (fun hr => hr h.1) fun hk => hk h.2)
    · refine (hpending q).trans ?_
      rw [if_pos rfl, named_of_named hnamed, add_comm, Multiset.singleton_add]
      rfl
    · intro r hr
      refine Eq.trans ?_ (hpending r).symm
      rw [if_neg hr, add_zero]
      rfl
  · rw [keyResult_of_length (not_le.mp hnamed)] at hresult
    obtain ⟨-, rfl⟩ := Prod.mk.inj (Option.some.inj hresult)
    refine settling_of_same h.settling (store_keep hfind) fun r => ?_
    rw [hpending, named_of_not_named hnamed, ite_self, add_zero]

/-- What is asked of the command of a client, for a step that handles one. -/
def OnClient (P : Fin row.length → Session → Str → Int → Prop) : Step row.length → Prop
  | .client p ss com t _ => P p ss com t
  | .task .. => True

/-- A command that its client sends as a write, and that leaves the same at every node. -/
structure Issues (g : Group row.length) (p : Fin row.length) (ss : Session) (com : Str) (t : Int) :
    Prop where
  autoSendYes : ss.autoSendYes = true
  write : PlainWrite com
  keeps : Keeps (g.servers p) ss com t
  free : g.Free com

/-- **Every step** keeps the nodes about to agree. -/
theorem Settled.step (hrow : WellFormedRow row) (h : Settled g) {e : Step row.length}
    (hclient : OnClient (Issues g) e) (hstep : step row g e = some g') : Settled g' := by
  obtain ⟨new, hs⟩ := stepped hstep
  cases hs with
  | client hx =>
    exact h.client hrow hclient.write hclient.autoSendYes hclient.keeps hclient.free hx
  | @autoSend index t connected p com i sock hindex hi hsock =>
    have hmsg : Message com := h.standing.proper _ (List.mem_of_getElem? hindex)
    rw [(h.standing.member p).replicaSock] at hsock
    refine h.move hindex ?_ fun q => ?_
    · simp only [List.forall_mem_cons, List.not_mem_nil, IsEmpty.forall_iff, implies_true, and_true]
      exact ⟨⟨List.mem_of_getElem? hsock, hmsg⟩, hmsg⟩
    · -- the round takes the next of the other nodes
      obtain ⟨q', hq', rfl⟩ : ∃ q', (others p)[i]? = some q' ∧ some (addr row q') = sock := by
        rw [socks, List.getElem?_map] at hsock
        exact Option.map_eq_some_iff.mp hsock
      obtain ⟨hlt, hget⟩ := List.getElem?_eq_some_iff.mp hq'
      rw [List.flatMap_cons, List.flatMap_singleton, owed, owed, owed, List.drop_eq_getElem_cons hlt, hget,
        List.filterMap_cons, Option.bind_some, find_peer hrow.nodup]
      by_cases hqq : q' = q
      · simp [hqq]
      · simp [hqq]
  | @autoSendDone index t connected p com i hindex hi =>
    refine h.move hindex (by simp) fun q => ?_
    -- no other node is left
    have hlen : (others p).length ≤ i := by
      have hsocks : (row.eraseIdx p).length = row.length - 1 := List.length_eraseIdx_of_lt p.isLt
      rw [eraseIdx_eq_map_others, List.length_map] at hsocks
      rw [(h.standing.member p).replicaNum] at hi
      omega
    rw [owed, List.drop_eq_nil_of_le hlen]
    rfl
  | @autoSendEach index t connected p sock com hindex =>
    obtain ⟨hsock, hmsg⟩ : sock ∈ socks p ∧ Message com :=
      h.standing.proper _ (List.mem_of_getElem? hindex)
    obtain ⟨q', hq', rfl⟩ := List.mem_map.mp hsock
    refine h.move hindex ?_ fun q => ?_
    · rw [Option.bind_some, find_peer hrow.nodup, Option.toList_some, List.map_singleton]
      exact List.forall_mem_singleton.mpr ⟨mem_others.mp hq', hmsg⟩
    · rw [Option.bind_some, find_peer hrow.nodup, Option.toList_some, List.map_singleton,
        List.flatMap_singleton, owed, owed, Option.bind_some, find_peer hrow.nodup]
      simp only [Option.some.injEq]
  | @onWire index t connected p q com hindex hfirst =>
    have hproper : q ≠ p ∧ Message com := h.standing.proper _ (List.mem_of_getElem? hindex)
    refine h.move hindex ?_ fun q => ?_
    · exact List.forall_mem_singleton.mpr hproper
    · rw [List.flatMap_singleton]
      rfl
  | inHand hindex hx => exact h.inHand hindex hx

/-- A group that is built has nothing to agree about. -/
theorem Built.settled (hrow : WellFormedRow row) (p : Fin row.length) (h : Built row g) :
    Settled g := by
  obtain ⟨hmember, hlink, htasks⟩ := h.spec hrow
  refine ⟨⟨fun q => (hmember q).1, hlink, ?_, ?_⟩, .of_agree p (fun q k => ?_) fun q => ?_⟩
  · rw [htasks]
    exact fun _ h => absurd h (by simp)
  · intro q k n hn
    rw [(hmember q).2 k] at hn
    exact absurd hn (by simp)
  · exact ((hmember q).2 k).trans ((hmember p).2 k).symm
  · change pendingOf g.tasks q = 0
    rw [htasks]
    rfl

/-- **Every run** keeps the nodes about to agree. -/
theorem Settled.run (hrow : WellFormedRow row) {ok : Group row.length → Step row.length → Prop}
    (hok : ∀ g e, ok g e → OnClient (Issues g) e) (h : Settled g) (hrun : Run row ok g g') :
    Settled g' := by
  induction hrun with
  | refl => exact h
  | tail _ hstep hnext ih => exact ih.step hrow (hok _ _ hstep) hnext

/-- The threads and messages move on in turn, some steps in all. -/
def drain (row : List Replica) : ℕ → Group row.length → Option (Group row.length)
  | 0, g => some g
  | n + 1, g => (step row g (.task 0 0 true)).bind (drain row n)

/-- Steps of threads and messages go on with any run. -/
theorem Run.drain {row : List Replica} {ok : Group row.length → Step row.length → Prop}
    (hok : ∀ g, ok g (.task 0 0 true)) {g g₁ g₂ : Group row.length} {n : ℕ} (h : Run row ok g g₁)
    (hdrain : drain row n g₁ = some g₂) : Run row ok g g₂ := by
  induction n generalizing g₁ with
  | zero =>
    obtain rfl := Option.some.inj hdrain
    exact h
  | succ n ih =>
    obtain ⟨g', hstep, hrest⟩ := Option.bind_eq_some_iff.mp hdrain
    exact ih (h.tail (hok g₁) hstep) hrest

/-! ### One writer -/

end Group

end MuseKv
