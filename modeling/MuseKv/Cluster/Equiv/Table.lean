import MuseKv.Server.Equiv.Setup
import MuseKv.Server.Equiv.Write

/-!
# The routing table

The table is kept as `cluster_vec`, `slot_start`, `slot_end` and `cluster_num`, and `scan_and_send`
uses the index that it finds in the bounds for the sockets.  `cluster_connect` adds the socket and
counts it before it calls `socket` and `connect`, and adds the bounds only when both have succeeded
(`takeClusts_eq`).  So the table is aligned just when no call failed: **`aligned_iff`**.
-/

namespace MuseKv

open Kvstore Command

/-- A `clust` message, the session it comes from, and whether `socket` and `connect` succeed. -/
structure ClustMessage where
  com : Str
  session : Session := {}
  currTime : Int := 0
  socket : Bool
  connect : Bool

namespace ClustMessage

/-- The first word is `clust`. -/
def IsClust (m : ClustMessage) : Prop := (words (commandPart m.com)).head? = some (lit "clust")

/-- The word of the message at an index. -/
def word (m : ClustMessage) (i : ℕ) : Str := (words (commandPart m.com)).getD i []

def connected (m : ClustMessage) : Bool := m.socket && m.connect

/-- The node that the message names. -/
def peer (m : ClustMessage) : Peer := (m.word 1, atoi (m.word 2))

/-- What `cluster_vec` holds for the message. -/
def sock (m : ClustMessage) : Option Peer := if m.connected then some m.peer else none

/-- The bounds that the message names. -/
def start (m : ClustMessage) : Int := atoi (m.word 3)

def last (m : ClustMessage) : Int := atoi (m.word 4)

end ClustMessage

/-- A server processes `clust` messages. -/
def takeClusts : List ClustMessage → Server → Option Server
  | [], s => some s
  | m :: ms, s => (scanAndSend s m.session m.com m.currTime m.connected).bind fun x =>
      takeClusts ms x.server

/-- A server that has not heard of any cluster. -/
structure Server.NoTable (s : Server) : Prop where
  clusterVec : s.clusterVec = []
  slotStart : s.slotStart = []
  slotEnd : s.slotEnd = []
  clusterNum : s.clusterNum = 0

/-- The table has one entry at each index, and it comes from one of the messages, whose connection
was made. -/
structure Aligned (s : Server) (ms : List ClustMessage) : Prop where
  clusterVec : s.clusterVec.length = s.clusterNum
  slotStart : s.slotStart.length = s.clusterNum
  slotEnd : s.slotEnd.length = s.clusterNum
  entry : ∀ i < s.clusterNum, ∃ m ∈ ms, m.connected = true ∧ s.clusterVec[i]? = some (some m.peer) ∧
    s.slotStart[i]? = some m.start ∧ s.slotEnd[i]? = some m.last

/-! ### What a sequence of messages leaves -/

variable {s s' : Server} {ms : List ClustMessage}

/-- A `clust` message is handed to `cluster_connect`. -/
theorem scanAndSend_of_clust {m : ClustMessage} (hm : m.IsClust) (s : Server) :
    scanAndSend s m.session m.com m.currTime m.connected
      = (s.clusterConnect (commandPart m.com) m.connected).map fun s' =>
        ⟨s', m.session, .client (magic (lit "clust")), none, none, none⟩ := by
  obtain ⟨args, hws⟩ := List.head?_eq_some_iff.mp hm
  rw [scanAndSend_control hws (by decide), route_clust]

/-- **One message.** -/
theorem clusterConnect_of_clust {m : ClustMessage} {x : Scan} (hm : m.IsClust)
    (h : scanAndSend s m.session m.com m.currTime m.connected = some x) :
    x.server.clusterVec = s.clusterVec ++ [m.sock] ∧
    x.server.clusterNum = s.clusterNum + 1 ∧
    x.server.slotStart = s.slotStart ++ (if m.connected then [m.start] else []) ∧
    x.server.slotEnd = s.slotEnd ++ (if m.connected then [m.last] else []) := by
  rw [scanAndSend_of_clust hm] at h
  obtain ⟨s₁, hs₁, rfl⟩ := Option.map_eq_some_iff.mp h
  obtain ⟨ip, port, hip, hport, hcases⟩ := Server.clusterConnect_eq_some hs₁
  have hpeer : m.peer = (ip, atoi port) := by
    rw [ClustMessage.peer, ClustMessage.word, ClustMessage.word, List.getD_eq_getElem?_getD, hip,
      List.getD_eq_getElem?_getD, hport]
    rfl
  rcases hcases with ⟨hconn, start, last, hstart, hlast, rfl⟩ | ⟨hconn, rfl⟩
  · have hbounds : m.start = atoi start ∧ m.last = atoi last := by
      rw [ClustMessage.start, ClustMessage.last, ClustMessage.word, ClustMessage.word,
        List.getD_eq_getElem?_getD, hstart, List.getD_eq_getElem?_getD, hlast]
      exact ⟨rfl, rfl⟩
    rw [ClustMessage.sock, hconn, if_pos rfl, if_pos rfl, if_pos rfl, hpeer, hbounds.1, hbounds.2]
    exact ⟨rfl, rfl, rfl, rfl⟩
  · rw [ClustMessage.sock, hconn, if_neg Bool.false_ne_true, if_neg Bool.false_ne_true,
      if_neg Bool.false_ne_true, List.append_nil, List.append_nil]
    exact ⟨rfl, rfl, rfl, rfl⟩

/-- **A sequence of messages**: a socket for each of them, the bounds of those that were connected. -/
theorem takeClusts_eq (hms : ∀ m ∈ ms, m.IsClust) (h : takeClusts ms s = some s') :
    s'.clusterVec = s.clusterVec ++ ms.map ClustMessage.sock ∧
    s'.clusterNum = s.clusterNum + ms.length ∧
    s'.slotStart = s.slotStart ++ (ms.filter ClustMessage.connected).map ClustMessage.start ∧
    s'.slotEnd = s.slotEnd ++ (ms.filter ClustMessage.connected).map ClustMessage.last := by
  induction ms generalizing s with
  | nil =>
    obtain rfl := Option.some.inj h
    simp
  | cons m ms ih =>
    obtain ⟨x, hx, h⟩ := Option.bind_eq_some_iff.mp h
    obtain ⟨hvec, hnum, hstart, hlast⟩ :=
      clusterConnect_of_clust (hms m (List.mem_cons_self ..)) hx
    obtain ⟨hvec', hnum', hstart', hlast'⟩ := ih (fun m' hm' => hms m' (List.mem_cons_of_mem _ hm')) h
    rw [hvec', hnum', hstart', hlast', hvec, hnum, hstart, hlast, List.filter_cons]
    refine ⟨?_, ?_, ?_, ?_⟩
    · rw [List.append_assoc]
      rfl
    · rw [List.length_cons]
      omega
    · split_ifs with hconn
      · rw [List.append_assoc]
        rfl
      · rw [List.append_nil]
    · split_ifs with hconn
      · rw [List.append_assoc]
        rfl
      · rw [List.append_nil]

/-- A message with enough words is processed without a fault. -/
theorem exists_takeClusts (hms : ∀ m ∈ ms, m.IsClust)
    (hlen : ∀ m ∈ ms, Server.connectWords m.connected ≤ (words (commandPart m.com)).length)
    (s : Server) : ∃ s', takeClusts ms s = some s' := by
  induction ms generalizing s with
  | nil => exact ⟨s, rfl⟩
  | cons m ms ih =>
    have hm := List.mem_cons_self (a := m) (l := ms)
    obtain ⟨s₁, hs₁⟩ := Option.isSome_iff_exists.mp
      ((Server.clusterConnect_isSome (s := s)).mpr (hlen m hm))
    obtain ⟨s', hs'⟩ := ih (fun m' hm' => hms m' (List.mem_cons_of_mem _ hm'))
      (fun m' hm' => hlen m' (List.mem_cons_of_mem _ hm')) s₁
    refine ⟨s', ?_⟩
    rw [takeClusts, scanAndSend_of_clust (hms m hm), hs₁, Option.map_some, Option.bind_some, hs']

/-! ### Alignment -/

/-- **The table is aligned if and only if every `socket` and every `connect` succeeded.** -/
theorem aligned_iff (hs : s.NoTable) (hms : ∀ m ∈ ms, m.IsClust) (h : takeClusts ms s = some s') :
    Aligned s' ms ↔ ∀ m ∈ ms, m.socket = true ∧ m.connect = true := by
  obtain ⟨hvec, hnum, hstart, hlast⟩ := takeClusts_eq hms h
  rw [hs.clusterVec, List.nil_append] at hvec
  rw [hs.clusterNum, Nat.zero_add] at hnum
  rw [hs.slotStart, List.nil_append] at hstart
  rw [hs.slotEnd, List.nil_append] at hlast
  have hconn : (∀ m ∈ ms, m.socket = true ∧ m.connect = true) ↔ ∀ m ∈ ms, m.connected = true := by
    simp only [ClustMessage.connected, Bool.and_eq_true]
  rw [hconn]
  constructor
  · intro hal
    -- the node is counted in any case, and its bounds only behind a connection
    have hlen := hal.slotStart
    rw [hstart, hnum, List.length_map] at hlen
    exact List.length_filter_eq_length_iff.mp hlen
  · intro hall
    have hfilter : ms.filter ClustMessage.connected = ms := List.filter_eq_self.mpr hall
    rw [hfilter] at hstart hlast
    constructor
    · rw [hvec, hnum, List.length_map]
    · rw [hstart, hnum, List.length_map]
    · rw [hlast, hnum, List.length_map]
    · intro i hi
      rw [hnum] at hi
      have hmem := List.getElem_mem hi
      refine ⟨ms[i], hmem, hall _ hmem, ?_, ?_, ?_⟩
      · rw [hvec, List.getElem?_map, List.getElem?_eq_getElem hi, Option.map_some, ClustMessage.sock,
          if_pos (hall _ hmem)]
      · rw [hstart, List.getElem?_map, List.getElem?_eq_getElem hi]
        rfl
      · rw [hlast, List.getElem?_map, List.getElem?_eq_getElem hi]
        rfl

/-- The second and the third node of a cluster; the first message fails to connect, if `connect` is
false. -/
def twoClusts (connect : Bool) : List ClustMessage :=
  [{ com := lit "clust 10.0.0.2 5002 0 10006", socket := true, connect := connect },
    { com := lit "clust 10.0.0.3 5003 10007 20012", socket := true, connect := true }]

theorem isClust_twoClusts (connect : Bool) : ∀ m ∈ twoClusts connect, m.IsClust := by
  intro m hm
  simp only [twoClusts, List.mem_cons, List.not_mem_nil, or_false] at hm
  rcases hm with rfl | rfl
  · change (words (commandPart (lit "clust 10.0.0.2 5002 0 10006"))).head? = some (lit "clust")
    decide
  · change (words (commandPart (lit "clust 10.0.0.3 5003 10007 20012"))).head? = some (lit "clust")
    decide

theorem exists_twoClusts (connect : Bool) (s : Server) :
    ∃ s', takeClusts (twoClusts connect) s = some s' := by
  refine exists_takeClusts (isClust_twoClusts connect) ?_ s
  intro m hm
  have hle : Server.connectWords m.connected ≤ 5 := by cases m.connected <;> decide
  refine hle.trans ?_
  simp only [twoClusts, List.mem_cons, List.not_mem_nil, or_false] at hm
  rcases hm with rfl | rfl
  · change 5 ≤ (words (commandPart (lit "clust 10.0.0.2 5002 0 10006"))).length
    decide
  · change 5 ≤ (words (commandPart (lit "clust 10.0.0.3 5003 10007 20012"))).length
    decide

theorem noTable_fresh : Server.NoTable { w := World.fresh 5001 } := ⟨rfl, rfl, rfl, rfl⟩

/-- Two connections that come about. -/
theorem aligned_twoClusts : ∃ s', takeClusts (twoClusts true) { w := World.fresh 5001 } = some s' ∧
    Aligned s' (twoClusts true) := by
  obtain ⟨s', hs'⟩ := exists_twoClusts true { w := World.fresh 5001 }
  refine ⟨s', hs', (aligned_iff noTable_fresh (isClust_twoClusts true) hs').mpr ?_⟩
  intro m hm
  simp only [twoClusts, List.mem_cons, List.not_mem_nil, or_false] at hm
  rcases hm with rfl | rfl <;> exact ⟨rfl, rfl⟩

/-- **After one failed `connect`** the bounds of the second node are at the index of the first one,
where the socket is not connected. -/
theorem not_aligned_twoClusts : ∃ s',
    takeClusts (twoClusts false) { w := World.fresh 5001 } = some s' ∧
    s'.clusterVec[0]? = some none ∧ s'.slotStart[0]? = some 10007 ∧
    ¬Aligned s' (twoClusts false) := by
  obtain ⟨s', hs'⟩ := exists_twoClusts false { w := World.fresh 5001 }
  obtain ⟨hvec, hnum, hstart, -⟩ := takeClusts_eq (isClust_twoClusts false) hs'
  refine ⟨s', hs', ?_, ?_, fun hal => ?_⟩
  · rw [hvec]
    rfl
  · rw [hstart]
    decide
  · have hlen := hal.slotStart
    rw [hstart, hnum] at hlen
    exact absurd hlen (by decide)

end MuseKv
