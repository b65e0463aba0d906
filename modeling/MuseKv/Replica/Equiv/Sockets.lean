import MuseKv.Replica.Sockets
import MuseKv.Replica.Group
import MuseKv.Server.Equiv.Setup

/-!
# When every socket of the replicas is connected

The sockets below `repnum` are connected, the one at `repnum` is what the last call of `replica_add`
left, and the others are as they were allocated (`Tracks`).  So the loops over all sockets use connected
ones only, if and only if enough replicas were added since the last `replicanumber`
(`ready_iff_complete`).
-/

namespace MuseKv

open Kvstore Command

namespace Server

variable {s s' : Server} {u : ReplicaSetup} {com : Str} {outcome : AddOutcome}

/-- `replica_add` is that of `scan_and_send`, unless the greeting fails. -/
theorem replicaAdd_of_outcome (s : Server) (com : Str) (houtcome : outcome ≠ .sendFails) :
    (s.replicaAdd com outcome.connects).map Prod.fst = s.replicaAddWith com outcome := by
  rw [replicaAdd, replicaAddWith]
  by_cases hroom : (s.repnum : Int) < s.replicaNum - 1
  · rw [if_pos hroom, if_pos hroom]
    dsimp only
    rcases (words com)[1]? with _ | ip
    · rfl
    · rcases (words com)[2]? with _ | port
      · rfl
      · cases outcome with
        | socketFails => rfl
        | connectFails => rfl
        | sendFails => exact absurd rfl houtcome
        | added => rfl
  · rw [if_neg hroom, if_neg hroom]
    rfl

/-- What a call of `replica_add` leaves: the cell at the counter is written, if there is room. -/
theorem replicaAddWith_eq_some (h : s.replicaAddWith com outcome = some s') :
    ((s.repnum : Int) < s.replicaNum - 1 ∧ ∃ p : Peer,
      s'.replicaNum = s.replicaNum ∧ s'.repnum = (if outcome = .added then s.repnum + 1 else s.repnum) ∧
      s'.replicaCom = s.replicaCom.set s.repnum (trim com) ∧ trim com ≠ [] ∧
      s'.replicaSock = s.replicaSock.set s.repnum (if outcome.connects then some p else none)) ∨
    (¬ (s.repnum : Int) < s.replicaNum - 1 ∧ s' = s) := by
  rw [replicaAddWith] at h
  by_cases hroom : (s.repnum : Int) < s.replicaNum - 1
  · rw [if_pos hroom] at h
    obtain ⟨ip, hip, h⟩ := Option.bind_eq_some_iff.mp h
    obtain ⟨port, -, rfl⟩ := Option.map_eq_some_iff.mp h
    have htrim : trim com ≠ [] := by
      intro hnil
      rw [words, hnil, split_nil] at hip
      exact absurd hip (by simp)
    exact Or.inl ⟨hroom, (ip, atoi port), rfl, rfl, rfl, htrim, rfl⟩
  · rw [if_neg hroom] at h
    exact Or.inr ⟨hroom, (Option.some.inj h).symm⟩

/-- A connected socket, with the text of its replica. -/
def Connected (s : Server) (i : ℕ) : Prop :=
  (∃ p, s.replicaSock[i]? = some (some p)) ∧ ∃ com, s.replicaCom[i]? = some com ∧ com ≠ []

theorem ready_iff : s.Ready ↔ ∀ i : ℕ, (i : Int) < s.replicaNum - 1 → s.Connected i :=
  ⟨fun h i hi => ⟨h.replicaSock i hi, h.replicaCom i hi⟩,
    fun h => ⟨fun i hi => (h i hi).1, fun i hi => (h i hi).2⟩⟩

/-- The cells of a server whose replicas were set up in some way. -/
structure Tracks (s : Server) (u : ReplicaSetup) : Prop where
  cells : s.replicaNum - 1 = u.cells
  repnum : s.repnum = min u.added u.cells.toNat
  lengthSock : s.replicaSock.length = u.cells.toNat
  lengthCom : s.replicaCom.length = u.cells.toNat
  below : ∀ i < s.repnum, s.Connected i
  last : s.repnum < u.cells.toNat → (s.Connected s.repnum ↔ u.outcomes.getLast? = some .sendFails)
  above : ∀ i, s.repnum < i → i < u.cells.toNat → s.replicaSock[i]? = some none

/-- A new server. -/
theorem tracks_start (w : World) : Tracks { w := w } {} where
  cells := rfl
  repnum := rfl
  lengthSock := rfl
  lengthCom := rfl
  below i hi := absurd hi (Nat.not_lt_zero i)
  last h := absurd h (Nat.lt_irrefl 0)
  above i _ hi := absurd hi (Nat.not_lt_zero i)

/-- **`replicanumber`** allocates cells without a connection. -/
theorem Tracks.number (h : s.setReplicaNum com = some s') :
    Tracks s' (u.next (.number (atoi ((words com).getD 1 [])))) := by
  obtain ⟨arg, harg, -, rfl⟩ := setReplicaNum_eq_some h
  have hget : (words com).getD 1 [] = arg := by
    rw [List.getD_eq_getElem?_getD, harg, Option.getD_some]
  rw [hget]
  refine ⟨rfl, rfl, List.length_replicate, List.length_replicate, fun i hi => ?_, fun hlt => ?_,
    fun i _ hi => List.getElem?_replicate_of_lt hi⟩
  · exact absurd hi (Nat.not_lt_zero i)
  · refine iff_of_false ?_ nofun
    rintro ⟨⟨p, hp⟩, -⟩
    exact nomatch (List.getElem?_replicate_of_lt hlt).symm.trans hp

/-- Only the cells count, and how many there are. -/
theorem Tracks.congr (h : Tracks s u) (hnum : s'.replicaNum = s.replicaNum)
    (hrepnum : s'.repnum = s.repnum) (hcom : s'.replicaCom = s.replicaCom)
    (hsock : s'.replicaSock = s.replicaSock) : Tracks s' u := by
  have hconnected : ∀ i, s'.Connected i ↔ s.Connected i := by
    intro i
    rw [Connected, Connected, hcom, hsock]
  refine ⟨hnum ▸ h.cells, hrepnum ▸ h.repnum, hsock ▸ h.lengthSock, hcom ▸ h.lengthCom, ?_, ?_, ?_⟩
  · intro i hi
    exact (hconnected i).mpr (h.below i (hrepnum ▸ hi))
  · intro hlt
    rw [hrepnum] at hlt ⊢
    exact (hconnected _).trans (h.last hlt)
  · intro i hi hlt
    rw [hrepnum] at hi
    rw [hsock]
    exact h.above i hi hlt

/-- **`replica`** writes the cell at the counter, and moves the counter on when nothing fails. -/
theorem Tracks.add (h : Tracks s u) (hadd : s.replicaAddWith com outcome = some s') :
    Tracks s' (u.next (.add outcome)) := by
  have hadded : (u.next (.add outcome)).added = u.added + if outcome = .added then 1 else 0 := by
    change (u.outcomes ++ [outcome]).count .added = _
    rw [List.count_append, List.count_singleton]
    simp [ReplicaSetup.added]
  have hlast : (u.next (.add outcome)).outcomes.getLast? = some outcome := List.getLast?_concat
  have hcells := h.cells
  have hrepnum := h.repnum
  obtain ⟨hroom, p, hnum, hcount, hcom, htrim, hsock⟩ | ⟨hfull, heq⟩ := replicaAddWith_eq_some hadd
  · -- the counter is below the number of cells, so it is the number of replicas that were added
    have hlt : s.repnum < u.cells.toNat := by omega
    have hother : ∀ i, i ≠ s.repnum → (s'.Connected i ↔ s.Connected i) := by
      intro i hi
      rw [Connected, Connected, hcom, hsock, List.getElem?_set_ne hi.symm,
        List.getElem?_set_ne hi.symm]
    have hcell : s'.replicaSock[s.repnum]? = some (if outcome.connects then some p else none) := by
      rw [hsock, List.getElem?_set_self (h.lengthSock ▸ hlt)]
    have htext : s'.replicaCom[s.repnum]? = some (trim com) := by
      rw [hcom, List.getElem?_set_self (h.lengthCom ▸ hlt)]
    have hself : s'.Connected s.repnum ↔ outcome.connects = true := by
      rw [Connected, hcell, htext]
      cases outcome.connects with
      | false => simp
      | true => simp [htrim]
    have hrest : ∀ i, s.repnum < i → i < u.cells.toNat → s'.replicaSock[i]? = some none := by
      intro i hi hlt
      rw [hsock, List.getElem?_set_ne hi.ne]
      exact h.above i hi hlt
    refine ⟨hnum ▸ hcells, ?_, ?_, ?_, ?_, ?_, ?_⟩
    · change s'.repnum = min _ u.cells.toNat
      rw [hcount, hadded]
      split_ifs
      · omega
      · omega
    · rw [hsock, List.length_set]
      exact h.lengthSock
    · rw [hcom, List.length_set]
      exact h.lengthCom
    · intro i hi
      rw [hcount] at hi
      rcases eq_or_ne i s.repnum with rfl | hne
      · -- the counter has moved on
        split_ifs at hi with hall
        · exact hself.mpr (by rw [hall]; rfl)
        · exact absurd hi (lt_irrefl _)
      · refine (hother i hne).mpr (h.below i ?_)
        split_ifs at hi
        · omega
        · exact hi
    · intro hlt'
      rw [hlast, Option.some.injEq]
      change s'.repnum < u.cells.toNat at hlt'
      rw [hcount] at hlt' ⊢
      cases outcome with
      | socketFails => exact hself.trans (iff_of_false Bool.false_ne_true nofun)
      | connectFails => exact hself.trans (iff_of_false Bool.false_ne_true nofun)
      | sendFails => exact hself.trans (iff_of_true rfl rfl)
      | added =>
        refine iff_of_false ?_ nofun
        rintro ⟨⟨p', hp'⟩, -⟩
        rw [if_pos rfl, hrest _ (Nat.lt_succ_self _) hlt'] at hp'
        exact nomatch hp'
    · intro i hi hlt'
      refine hrest i ?_ hlt'
      rw [hcount] at hi
      split_ifs at hi
      · omega
      · exact hi
  · -- there is no room, and the message is dropped
    have hge : u.cells.toNat ≤ s.repnum := by omega
    rw [heq]
    refine ⟨hcells, ?_, h.lengthSock, h.lengthCom, h.below, fun hlt => ?_, h.above⟩
    · change s.repnum = min _ u.cells.toNat
      rw [hadded]
      omega
    · exact absurd hlt (not_lt.mpr hge)

/-- **One message** changes the cells as its event says. -/
theorem Tracks.receive {m : Arrival} {e : ReplicaEvent} (h : Tracks s u)
    (hm : s.receive m = some (s', e)) : Tracks s' (u.next e) := by
  obtain ⟨⟨msg, w⟩, -, hm⟩ := Option.bind_eq_some_iff.mp hm
  obtain ⟨s₁, hs₁, heq⟩ := Option.map_eq_some_iff.mp hm
  obtain ⟨rfl, rfl⟩ := Prod.mk.inj heq
  have hw : Tracks { s with w := w } u := h.congr rfl rfl rfl rfl
  rw [replicaEvent]
  by_cases hreplica : msg = magic (lit "replica")
  · rw [if_pos hreplica] at hs₁ ⊢
    exact hw.add hs₁
  rw [if_neg hreplica] at hs₁ ⊢
  obtain ⟨x, hx, rfl⟩ := Option.map_eq_some_iff.mp hs₁
  by_cases hnumber : msg = magic (lit "replicanumber")
  · rw [if_pos hnumber]
    have hx : route { s with w := w } m.ss m.com true msg = some x := hx
    rw [hnumber, route_replicanumber] at hx
    obtain ⟨s₂, hs₂, rfl⟩ := Option.map_eq_some_iff.mp hx
    exact .number hs₂
  rw [if_neg hnumber]
  change Tracks x.server u
  rcases route_server hx with ⟨-, hs⟩ | ⟨-, hs⟩ | ⟨rfl, -⟩ | ⟨rfl, -⟩ | hs
  · obtain ⟨_, _, -, -, ⟨-, _, _, -, -, heq⟩ | ⟨-, heq⟩⟩ := clusterConnect_eq_some hs
    · rw [heq]
      exact hw.congr rfl rfl rfl rfl
    · rw [heq]
      exact hw.congr rfl rfl rfl rfl
  · obtain ⟨_, _, -, -, heq⟩ := hashReset_eq_some hs
    rw [heq]
    exact hw.congr rfl rfl rfl rfl
  · exact absurd rfl hnumber
  · exact absurd rfl hreplica
  · rw [hs]
    exact hw

/-- **A run of messages.** -/
theorem Tracks.run {ms : List Arrival} :
    ∀ {s s' : Server} {u : ReplicaSetup} {events : List ReplicaEvent}, Tracks s u →
      receiveAll ms s = some (s', events) → Tracks s' (events.foldl ReplicaSetup.next u) := by
  induction ms with
  | nil =>
    intro s s' u events h hrun
    obtain ⟨rfl, rfl⟩ := Prod.mk.inj (Option.some.inj hrun)
    exact h
  | cons m ms ih =>
    intro s s' u events h hrun
    obtain ⟨⟨s₁, e⟩, hm, hrun⟩ := Option.bind_eq_some_iff.mp hrun
    obtain ⟨⟨s₂, es⟩, hrest, heq⟩ := Option.map_eq_some_iff.mp hrun
    obtain ⟨rfl, rfl⟩ := Prod.mk.inj heq
    have hlast : Tracks s₂ (es.foldl ReplicaSetup.next (u.next e)) := ih (h.receive hm) hrest
    exact hlast

/-- The cells are all connected just when enough replicas were added. -/
theorem Tracks.ready_iff (h : Tracks s u) : s.Ready ↔ u.Complete := by
  have hcells := h.cells
  have hrepnum := h.repnum
  rw [Server.ready_iff, ReplicaSetup.Complete]
  constructor
  · intro hready
    by_cases hfull : u.cells ≤ u.added
    · exact Or.inl hfull
    · -- the cell at the counter is the last one, or the one behind it would be without a connection
      have hlt : s.repnum < u.cells.toNat := by omega
      have hlast := (h.last hlt).mp (hready _ (by omega))
      refine Or.inr ⟨?_, hlast⟩
      by_contra hne
      obtain ⟨⟨p, hp⟩, -⟩ := hready (s.repnum + 1) (by omega)
      rw [h.above _ (Nat.lt_succ_self _) (by omega)] at hp
      exact nomatch hp
  · rintro (hfull | ⟨hone, hlast⟩) i hi
    · exact h.below i (by omega)
    · rcases eq_or_ne i s.repnum with rfl | hne
      · exact (h.last (by omega)).mpr hlast
      · exact h.below i (by omega)

/-- **After any messages to a new server, replication uses connected replicas only, if and only if**
enough replicas were added since the last `replicanumber`. -/
theorem ready_iff_complete (w : World) (ms : List Arrival) {events : List ReplicaEvent}
    (hrun : receiveAll ms { w := w } = some (s, events)) :
    s.Ready ↔ (ReplicaSetup.after events).Complete :=
  ((tracks_start w).run hrun).ready_iff

/-! ### What a message counts as -/

/-- A control word counts as the message of that word. -/
theorem receive_control {m : Arrival} {word : Str} {args : List Str} {x : Server × ReplicaEvent}
    (hws : words (commandPart m.com) = word :: args) (hword : word ∈ controlWords)
    (hx : s.receive m = some x) : x.2 = replicaEvent m (magic word) := by
  rw [receive, execute, hws, executeWords, if_pos hword] at hx
  obtain ⟨_, -, rfl⟩ := Option.map_eq_some_iff.mp hx
  rfl

/-- A command whose reply is not marked counts as nothing. -/
theorem receive_other {m : Arrival} {x : Server × ReplicaEvent}
    (hreply : ∀ msg w, execute (commandPart m.com) (toU8 (authority m.ss m.com)) m.currTime s.w
      = some (msg, w) → ¬ Marked msg)
    (hx : s.receive m = some x) : x.2 = .other := by
  obtain ⟨⟨msg, w⟩, hexec, hx⟩ := Option.bind_eq_some_iff.mp hx
  obtain ⟨_, -, rfl⟩ := Option.map_eq_some_iff.mp hx
  have hmagic : ∀ word ∈ controlWords, msg ≠ magic word := fun word hword heq =>
    hreply msg w hexec (Or.inr ⟨word, hword, heq⟩)
  rw [replicaEvent, if_neg (hmagic _ (by decide)), if_neg (hmagic _ (by decide))]

/-! ### The loops over the sockets -/

/-- With connected replicas, `try_cluster` stays within its sockets, and ends unless a send ends it. -/
theorem Ready.tryCluster (h : s.Ready) {sends : Option Peer → Sending}
    (hsends : ∀ a, sends a ≠ .killed) : ∃ o, s.tryCluster sends = some o := by
  have hloop : ∀ fuel i : ℕ, i + fuel = (s.replicaNum - 1).toNat →
      ∃ o, s.tryClusterFrom sends fuel i = some o := by
    intro fuel
    induction fuel with
    | zero => exact fun i _ => ⟨none, rfl⟩
    | succ fuel ih =>
      intro i hi
      obtain ⟨p, hp⟩ := h.replicaSock i (by omega)
      rw [tryClusterFrom, hp, Option.bind_some]
      split
      next => exact ⟨_, rfl⟩
      next hkilled => exact absurd hkilled (hsends _)
      next => exact ih (i + 1) (by omega)
  exact hloop _ 0 (Nat.zero_add _)

/-- With connected replicas, every round of `auto_send` starts a thread for a connected one. -/
theorem Ready.autoSend {row : List Distribute.Replica} {g : Group row.length} {p : Fin row.length}
    {i index : ℕ} {t : Int} {connected : Bool} (h : (g.servers p).Ready)
    (htask : g.tasks[index]? = some (.autoSend p com i))
    (hi : (i : Int) < (g.servers p).replicaNum - 1) :
    ∃ peer, Group.step row g (.task index t connected) = some { g with
      tasks := g.tasks.eraseIdx index ++
        [.autoSendEach p (some peer) com, .autoSend p com (i + 1)] } := by
  obtain ⟨peer, hpeer⟩ := h.replicaSock i hi
  refine ⟨peer, ?_⟩
  rw [Group.step, htask, Option.bind_some]
  change (if _ then _ else _) = _
  rw [if_pos hi, hpeer, Option.map_some]

/-! ### Messages to a new server -/

/-- A group of two, whose other replica is added. -/
def oneAdded : List Arrival :=
  [⟨{}, lit "replicanumber 2", 0, .added⟩, ⟨{}, lit "replica 127.0.0.1 5002", 0, .added⟩]

theorem ready_oneAdded : ∃ s events, receiveAll oneAdded { w := World.fresh 5001 } = some (s, events) ∧
    s.Ready :=
  ⟨_, _, rfl, (ready_iff_complete (World.fresh 5001) oneAdded rfl).mpr (by decide)⟩

/-- **A write behind `replicanumber 3`** is sent to two sockets that no `replica_add` has assigned. -/
theorem not_ready_noneAdded :
    (∃ s events x, receiveAll [⟨{}, lit "replicanumber 3", 0, .added⟩] { w := World.fresh 5001 }
        = some (s, events) ∧
      scanAndSend s {} (lit "make k v") 0 true = some x ∧ x.autoSend = some (lit "make k v") ∧
      x.server.replicaNum = 3 ∧ x.server.replicaSock = [none, none]) ∧
    ¬ ∀ (w : World) (ms : List Arrival) (s : Server) (events : List ReplicaEvent),
      receiveAll ms { w := w } = some (s, events) → s.Ready := by
  refine ⟨⟨_, _, _, rfl, rfl, rfl, rfl, rfl⟩, fun h => ?_⟩
  obtain ⟨p, hp⟩ := (h (World.fresh 5001) [⟨{}, lit "replicanumber 3", 0, .added⟩] _ _ rfl).replicaSock
    0 (by decide)
  exact nomatch hp

end Server

end MuseKv
