import MuseKv.Replica.Circulation
import MuseKv.Replica.Equiv.Builder
import MuseKv.Replica.Equiv.Step
import MuseKv.Server.Equiv.Relay

/-!
# The mesh of a group

A node sends on what a session that is not marked hands to it, and the session of each connection between
two replicas is marked by the greeting that is the first message on it (`Greeted`).  A group that is built
has such connections only (`Joined.meshed`), and its steps keep them as they are (`Meshed.step`).  So a
command that comes from another replica starts no thread (`Meshed.silent`).
-/

namespace MuseKv

open General Kvstore Command Distribute

namespace Group

variable {row : List Replica} {g g' : Group row.length}

/-! ### The sessions are marked in time -/

/-- The messages on a connection, in their order. -/
def wireOf {n : ℕ} (p q : Fin n) (tasks : List (Task n)) : List Str :=
  tasks.filterMap fun
    | .onWire p' q' com => if p' = p ∧ q' = q then some com else none
    | _ => none

/-- The messages of a connection that are received and not handled. -/
def handOf {n : ℕ} (p q : Fin n) (tasks : List (Task n)) : List Str :=
  tasks.filterMap fun
    | .inHand p' q' com => if p' = p ∧ q' = q then some com else none
    | _ => none

/-- A connection whose session is marked, or will be by its first message. -/
def Greeted (g : Group row.length) (p q : Fin row.length) : Prop :=
  (g.links p q).autoSendYes = false ∨
  (handOf p q g.tasks = [] ∧ (wireOf p q g.tasks).head? = some (lit "replicaaccept")) ∨
  handOf p q g.tasks = [lit "replicaaccept"]

/-- A task that holds a write, or a greeting, and goes to another node than the one it came from. -/
def Sound : Task row.length → Prop
  | .autoSend _ com _ => Relayed com
  | .autoSendEach p sock com => Relayed com ∧ ∀ a, sock = some a → ∃ q ∈ others p, addr row q = a
  | .onWire p q com => q ≠ p ∧ (Relayed com ∨ com = lit "replicaaccept")
  | .inHand p q com => q ≠ p ∧ (Relayed com ∨ com = lit "replicaaccept")

/-- **The mesh**: the socket at an index is that of the node at that place in the row, if it is connected,
and every connection between two nodes is greeted. -/
structure Meshed (g : Group row.length) : Prop where
  sock : ∀ (p : Fin row.length) (i : ℕ) (a : Peer), (g.servers p).replicaSock[i]? = some (some a) →
    (others p)[i]?.map (addr row) = some a
  sound : ∀ task ∈ g.tasks, Sound task
  greeted : ∀ p q, q ≠ p → Greeted g p q

section Erase

variable {α β : Type} {l : List α} {index : ℕ} {a : α} {f : α → Option β}

theorem filterMap_eraseIdx_of_nil (h : l[index]? = some a) (hf : [a].filterMap f = []) :
    (l.eraseIdx index).filterMap f = l.filterMap f := by
  obtain ⟨hlt, rfl⟩ := List.getElem?_eq_some_iff.mp h
  conv_rhs => rw [← List.take_append_drop index l, List.drop_eq_getElem_cons hlt, ← List.singleton_append,
    List.filterMap_append, List.filterMap_append, hf, List.nil_append]
  rw [List.eraseIdx_eq_take_drop_succ, List.filterMap_append]

theorem filterMap_of_first {b : β} (h : l[index]? = some a) (hf : f a = some b)
    (hfirst : ∀ x ∈ l.take index, f x = none) :
    l.filterMap f = b :: (l.eraseIdx index).filterMap f := by
  obtain ⟨hlt, rfl⟩ := List.getElem?_eq_some_iff.mp h
  have hnil : (l.take index).filterMap f = [] := List.filterMap_eq_nil_iff.mpr hfirst
  conv_lhs => rw [← List.take_append_drop index l, List.drop_eq_getElem_cons hlt, List.filterMap_append,
    hnil, List.nil_append, List.filterMap_cons_some hf]
  rw [List.eraseIdx_eq_take_drop_succ, List.filterMap_append, hnil, List.nil_append]

end Erase

theorem wireOf_append (p q : Fin row.length) (l l' : List (Task row.length)) :
    wireOf p q (l ++ l') = wireOf p q l ++ wireOf p q l' := List.filterMap_append ..

theorem handOf_append (p q : Fin row.length) (l l' : List (Task row.length)) :
    handOf p q (l ++ l') = handOf p q l ++ handOf p q l' := List.filterMap_append ..

/-- A connection stays greeted as long as its session stays, and messages are only added to it. -/
theorem Greeted.of_append {p q : Fin row.length} (h : Greeted g p q)
    (hlink : (g'.links p q).autoSendYes = (g.links p q).autoSendYes)
    {l : List Str} (hwire : wireOf p q g'.tasks = wireOf p q g.tasks ++ l)
    (hhand : handOf p q g'.tasks = handOf p q g.tasks) : Greeted g' p q := by
  unfold Greeted
  rw [hlink, hwire, hhand]
  rcases h with hmark | ⟨hnil, hhead⟩ | hone
  · exact Or.inl hmark
  · -- the greeting stays in front
    refine Or.inr (Or.inl ⟨hnil, ?_⟩)
    rw [List.head?_append, hhead, Option.some_or]
  · exact Or.inr (Or.inr hone)

/-- A connection stays greeted when a task that is no message on it moves on, with its session as it was and
no message of it in hand. -/
theorem Greeted.of_move {p q : Fin row.length} {index : ℕ} {task : Task row.length}
    {new : List (Task row.length)} (h : Greeted g p q) (hindex : g.tasks[index]? = some task)
    (hwire : wireOf p q [task] = []) (hhand : handOf p q [task] = []) (hnew : handOf p q new = [])
    (hlink : (g'.links p q).autoSendYes = (g.links p q).autoSendYes)
    (htasks : g'.tasks = g.tasks.eraseIdx index ++ new) : Greeted g' p q := by
  have hwires : wireOf p q g'.tasks = wireOf p q g.tasks ++ wireOf p q new := by
    rw [htasks, wireOf_append]
    exact congrArg (· ++ _) (filterMap_eraseIdx_of_nil hindex hwire)
  have hhands : handOf p q g'.tasks = handOf p q g.tasks := by
    rw [htasks, handOf_append, hnew, List.append_nil]
    exact filterMap_eraseIdx_of_nil hindex hhand
  exact h.of_append hlink hwires hhands

/-- A connection stays greeted when its first message is received, if none was in hand. -/
theorem Greeted.of_received {p q : Fin row.length} {com : Str} {index : ℕ} (h : Greeted g p q)
    (hindex : g.tasks[index]? = some (.onWire p q com))
    (hfirst : (g.tasks.take index).any (Task.sameWire (.onWire p q com)) = false)
    (hnone : ∀ com', .inHand p q com' ∉ g.tasks) :
    Greeted { g with tasks := g.tasks.eraseIdx index ++ [.inHand p q com] } p q := by
  have hhand : handOf p q g.tasks = [] := by
    apply List.filterMap_eq_nil_iff.mpr
    intro task htask
    cases task with
    | inHand p' q' com' =>
      apply if_neg
      rintro ⟨rfl, rfl⟩
      exact hnone com' htask
    | _ => rfl
  have hwire : wireOf p q g.tasks = com :: wireOf p q (g.tasks.eraseIdx index) := by
    apply filterMap_of_first hindex (if_pos ⟨rfl, rfl⟩)
    intro task htask
    cases task with
    | onWire p' q' com' =>
      apply if_neg
      rintro ⟨rfl, rfl⟩
      have hother := List.any_eq_false.mp hfirst _ htask
      simp [Task.sameWire] at hother
    | _ => rfl
  rcases h with hmark | ⟨-, hhead⟩ | hone
  · exact Or.inl hmark
  · -- what is received first is the greeting, which was in front
    rw [hwire, List.head?_cons, Option.some.injEq] at hhead
    refine Or.inr (Or.inr ?_)
    show handOf p q (g.tasks.eraseIdx index ++ [.inHand p q com]) = [lit "replicaaccept"]
    have herase : handOf p q (g.tasks.eraseIdx index) = handOf p q g.tasks :=
      filterMap_eraseIdx_of_nil hindex rfl
    have hnew : handOf p q [.inHand p q com] = [com] :=
      List.filterMap_cons_some (if_pos ⟨rfl, rfl⟩)
    rw [handOf_append, herase, hhand, hnew, hhead, List.nil_append]
  · -- nothing else was in hand
    rw [hhand] at hone
    exact absurd hone (by simp)

/-- The sessions of the other connections are left alone. -/
theorem update_links_of_ne {p q p' q' : Fin row.length} (h : ¬(p = p' ∧ q = q')) (ss : Session) :
    Function.update g.links p (Function.update (g.links p) q ss) p' q' = g.links p' q' := by
  by_cases hp : p' = p
  · subst hp
    rw [Function.update_self, Function.update_of_ne fun hq => h ⟨rfl, hq.symm⟩]
  · rw [Function.update_of_ne hp]

/-- The greeting is no write. -/
theorem not_relayed_replicaaccept : ¬ Relayed (lit "replicaaccept") := by
  rintro ⟨-, word, hword, hhead⟩
  have hws : words (lit "replicaaccept") = [lit "replicaaccept"] := by decide
  rw [hws, List.head?_cons, Option.some.injEq] at hhead
  exact absurd hword (hhead ▸ by decide)

/-- What a node starts for a command has only threads in it. -/
theorem wireOf_started (p q r : Fin row.length) (x : Scan) : wireOf p q (started r x) = [] := by
  unfold started
  cases x.autoSend with
  | none => rfl
  | some com => rfl

theorem handOf_started (p q r : Fin row.length) (x : Scan) : handOf p q (started r x) = [] := by
  unfold started
  cases x.autoSend with
  | none => rfl
  | some com => rfl

/-- **A message in hand** leaves its session marked, and starts no thread. -/
theorem Meshed.silent (h : Meshed g) {index : ℕ} {p q : Fin row.length} {com : Str} {t : Int}
    {connected : Bool} {x : Scan} (hindex : g.tasks[index]? = some (.inHand p q com))
    (hx : scanAndSend (g.servers q) (g.links p q) com t connected = some x) :
    KeepsSockets (g.servers q) x.server ∧ x.session.autoSendYes = false ∧ x.autoSend = none := by
  have hmem := List.mem_of_getElem? hindex
  obtain ⟨hne, hcom⟩ := h.sound _ hmem
  have hhand : com ∈ handOf p q g.tasks :=
    List.mem_filterMap.mpr ⟨_, hmem, if_pos ⟨rfl, rfl⟩⟩
  rcases hcom with hcom | rfl
  · have hmark : (g.links p q).autoSendYes = false := by
      rcases h.greeted p q hne with hmark | ⟨hnil, -⟩ | hone
      · exact hmark
      · rw [hnil] at hhand
        exact absurd hhand (by simp)
      · -- the only message in hand is the greeting
        rw [hone, List.mem_singleton] at hhand
        exact absurd (hhand ▸ hcom) not_relayed_replicaaccept
    have hcut : Relayed (commandPart com) := by rwa [commandPart_of_not_mem hcom.1]
    have hleaves := scanAndSend_relayed hcut hx
    exact ⟨hleaves.sockets, hleaves.marked hmark, hleaves.silent hmark⟩
  · rw [scanAndSend_replicaaccept, Option.some.injEq] at hx
    subst hx
    exact ⟨keepsSockets_of_eq rfl, rfl, rfl⟩

/-- Sockets that are kept lead where they did. -/
theorem Meshed.sock_update (h : Meshed g) {r : Fin row.length} {s : Server}
    (hs : KeepsSockets (g.servers r) s) (p : Fin row.length) (i : ℕ) (a : Peer)
    (ha : (Function.update g.servers r s p).replicaSock[i]? = some (some a)) :
    (others p)[i]?.map (addr row) = some a := by
  by_cases hp : p = r
  · rw [hp, Function.update_self] at ha
    rw [hp]
    exact h.sock r i a (hs i a ha)
  · rw [Function.update_of_ne hp] at ha
    exact h.sock p i a ha

/-- The tasks of a step are sound, if the new ones are. -/
theorem Meshed.sound_erase (h : Meshed g) {index : ℕ} {new : List (Task row.length)}
    (hnew : ∀ task ∈ new, Sound task) : ∀ task ∈ g.tasks.eraseIdx index ++ new, Sound task := by
  intro task htask
  rcases List.mem_append.mp htask with htask | htask
  · exact h.sound task (List.mem_of_mem_eraseIdx htask)
  · exact hnew task htask

/-- **A step keeps the mesh.** -/
theorem Meshed.step (hrow : (row.map Replica.peer).Nodup) (h : Meshed g) {e : Step row.length}
    (hok : g.Replicating e) {new : List (Task row.length)} (hs : Stepped g e new g') : Meshed g' := by
  cases hs with
  | @client p ss com t connected x hx =>
    have hleaves := scanAndSend_relayed (relayed_commandPart hok.write) hx
    refine ⟨h.sock_update hleaves.sockets, fun task htask => ?_, fun p' q hq => ?_⟩
    · rcases List.mem_append.mp htask with htask | htask
      · exact h.sound task htask
      · obtain ⟨com', hcom', rfl⟩ := List.mem_map.mp htask
        rw [Option.mem_toList] at hcom'
        -- the thread that starts sends the write itself
        show Relayed com'
        rw [hleaves.autoSend com' hcom']
        exact relayed_commandPart hok.write
    · refine (h.greeted p' q hq).of_append rfl (l := []) ?_ ?_
      · rw [wireOf_append, wireOf_started]
      · rw [handOf_append, handOf_started, List.append_nil]
  | @autoSend index t connected p com i sock hindex hi hsock =>
    have hcom : Relayed com := h.sound _ (List.mem_of_getElem? hindex)
    refine ⟨h.sock, h.sound_erase fun task htask => ?_, fun p' q hq => ?_⟩
    · rw [List.mem_cons, List.mem_singleton] at htask
      rcases htask with rfl | rfl
      · -- a socket that is connected leads to one of the other nodes
        refine ⟨hcom, fun a ha => ?_⟩
        rw [ha] at hsock
        obtain ⟨q, hq, haddr⟩ := Option.map_eq_some_iff.mp (h.sock p i a hsock)
        exact ⟨q, List.mem_of_getElem? hq, haddr⟩
      · exact hcom
    · exact (h.greeted p' q hq).of_move hindex rfl rfl rfl rfl rfl
  | @autoSendDone index t connected p com i hindex hi =>
    refine ⟨h.sock, h.sound_erase (by simp), fun p' q hq => ?_⟩
    exact (h.greeted p' q hq).of_move hindex rfl rfl rfl rfl rfl
  | @autoSendEach index t connected p sock com hindex =>
    obtain ⟨hcom, hsock⟩ := h.sound _ (List.mem_of_getElem? hindex)
    refine ⟨h.sock, h.sound_erase fun task htask => ?_, fun p' q hq => ?_⟩
    · obtain ⟨q, hq, rfl⟩ := List.mem_map.mp htask
      rw [Option.mem_toList] at hq
      obtain ⟨a, ha, hfind⟩ := Option.bind_eq_some_iff.mp hq
      obtain ⟨q', hq', rfl⟩ := hsock a ha
      rw [find_peer hrow, Option.some.injEq] at hfind
      exact ⟨hfind ▸ mem_others.mp hq', Or.inl hcom⟩
    · -- the message goes behind the greeting
      refine (h.greeted p' q hq).of_move hindex rfl rfl ?_ rfl rfl
      cases sock.bind (find row) with
      | none => rfl
      | some r => rfl
  | @onWire index t connected p q com hindex hfirst =>
    obtain ⟨hne, hcom⟩ := h.sound _ (List.mem_of_getElem? hindex)
    refine ⟨h.sock, h.sound_erase fun task htask => ?_, fun p' q' hq' => ?_⟩
    · rw [List.mem_singleton] at htask
      exact htask ▸ ⟨hne, hcom⟩
    · by_cases hpq : p = p' ∧ q = q'
      · -- the connection that the message is received on, and the others
        obtain ⟨rfl, rfl⟩ := hpq
        exact (h.greeted p q hq').of_received hindex hfirst (hok.oneAtATime p q com hindex)
      · have hother : wireOf p' q' [.onWire p q com] = [] := List.filterMap_cons_none (if_neg hpq)
        have hnew : handOf p' q' [.inHand p q com] = [] := List.filterMap_cons_none (if_neg hpq)
        exact (h.greeted p' q' hq').of_move hindex hother rfl hnew rfl rfl
  | @inHand index t connected p q com x hindex hx =>
    obtain ⟨hsockets, hmark, hsend⟩ := h.silent hindex hx
    have hstarted : started q x = [] := by rw [started, hsend, Option.toList_none, List.map_nil]
    rw [hstarted]
    refine ⟨h.sock_update hsockets, h.sound_erase (by simp), fun p' q' hq' => ?_⟩
    by_cases hpq : p = p' ∧ q = q'
    · -- from now on the session is marked
      obtain ⟨rfl, rfl⟩ := hpq
      refine Or.inl ?_
      show (Function.update g.links p (Function.update (g.links p) q x.session) p q).autoSendYes = false
      rw [Function.update_self, Function.update_self]
      exact hmark
    · have hother : handOf p' q' [.inHand p q com] = [] := List.filterMap_cons_none (if_neg hpq)
      refine (h.greeted p' q' hq').of_move hindex rfl hother rfl ?_ rfl
      show (Function.update g.links p (Function.update (g.links p) q x.session) p' q').autoSendYes = _
      rw [update_links_of_ne hpq]

end Group

namespace Replication

open MuseKv.Group

/-- **A group that is built is a mesh.** -/
theorem Joined.meshed {lines : List Str} {line : Str} {row : List Replica} {g : Group row.length}
    (hread : readConfig lines = some (line, row)) (hreach : ∀ r ∈ row, Reachable r.peer)
    (hrow : (row.map Replica.peer).Nodup) (h : Joined line row g) : g.Meshed := by
  obtain ⟨hsocks, htasks⟩ := h.spec hread hreach hrow
  have hmem : ∀ task, task ∈ g.tasks ↔
      ∃ p, ∃ q ∈ others p, task = .onWire p q (lit "replicaaccept") := by
    intro task
    rw [htasks.mem_iff, List.mem_flatMap]
    constructor
    · rintro ⟨p, -, htask⟩
      obtain ⟨q, hq, rfl⟩ := List.mem_map.mp htask
      exact ⟨p, q, hq, rfl⟩
    · rintro ⟨p, q, hq, rfl⟩
      exact ⟨p, List.mem_finRange p, List.mem_map_of_mem hq⟩
  refine ⟨fun p i a ha => ?_, fun task htask => ?_, fun p q hq => Or.inr (Or.inl ⟨?_, ?_⟩)⟩
  · rw [hsocks, socks, List.getElem?_map, Option.map_eq_some_iff] at ha
    obtain ⟨q, hq, haddr⟩ := ha
    rw [hq, Option.map_some]
    exact haddr
  · obtain ⟨p, q, hq, rfl⟩ := (hmem task).mp htask
    exact ⟨mem_others.mp hq, Or.inr rfl⟩
  · -- nothing is received yet
    apply List.filterMap_eq_nil_iff.mpr
    intro task htask
    obtain ⟨p', q', -, rfl⟩ := (hmem task).mp htask
    rfl
  · have hall : ∀ com ∈ wireOf p q g.tasks, com = lit "replicaaccept" := by
      intro com hcom
      obtain ⟨task, htask, hwire⟩ := List.mem_filterMap.mp hcom
      obtain ⟨p', q', -, rfl⟩ := (hmem task).mp htask
      dsimp only at hwire
      split_ifs at hwire
      exact (Option.some.inj hwire).symm
    have hgreeting : lit "replicaaccept" ∈ wireOf p q g.tasks :=
      List.mem_filterMap.mpr ⟨_, (hmem _).mpr ⟨p, q, mem_others.mpr hq, rfl⟩, if_pos ⟨rfl, rfl⟩⟩
    obtain ⟨com, hhead⟩ := Option.isSome_iff_exists.mp
      (List.isSome_head?.mpr (List.ne_nil_of_mem hgreeting))
    rw [hhead, hall com (List.mem_of_head? hhead)]

end Replication

end MuseKv
