import MuseKv.Cluster.Equiv.Building
import MuseKv.Cluster.Equiv.FailOver
import MuseKv.Cluster.TryCluster
import MuseKv.General.HandOff
import MuseKv.Replica.Equiv.Build

/-!
# Where the fail-over takes a command

A node that does not reach its peer hands the command to the first other replica that it reaches
(`Stands.receiver`), so the replicas of a row hand it on among themselves like the helpers of
`General.HandOff` (`Travels.handedOn`).

* `reachesOwner_iff`: the command gets to the cluster that owns its key just when the peer of the first
  node is reached, or that of one of the first two replicas of its row that are.
* `handedBackAndForth_iff`: otherwise two replicas send it to each other, until it fills a buffer.
-/

namespace MuseKv

open General Kvstore Command

namespace Server

variable {s s' : Server} {ss : Session} {reqs : List (Str × Int)} {r : Session × List Peer}

/-- What none of some messages changes. -/
theorem takeAll_keeps {γ : Type} (f : Server → γ)
    (hstep : ∀ req ∈ reqs, ∀ s ss x, scanAndSend s ss req.1 req.2 true = some x → f x.server = f s)
    (h : s.takeAll ss reqs = some (s', r)) : f s' = f s := by
  induction reqs generalizing s ss r with
  | nil =>
    obtain ⟨rfl, -⟩ := Prod.mk.inj (Option.some.inj h)
    rfl
  | cons req reqs ih =>
    obtain ⟨hreq, hreqs⟩ := List.forall_mem_cons.mp hstep
    obtain ⟨x, hx, h⟩ := Option.bind_eq_some_iff.mp h
    obtain ⟨r', hr', heq⟩ := Option.map_eq_some_iff.mp h
    obtain ⟨rfl, -⟩ := Prod.mk.inj heq
    exact (ih hreqs hr').trans (hreq s ss x hx)

/-- The loop of `try_cluster` searches the sockets. -/
theorem tryClusterFrom_eq {sends : Option Peer → Sending} (hsends : Distribute.Reported sends)
    {fuel i : ℕ} (h : i + fuel = s.replicaSock.length) :
    s.tryClusterFrom sends fuel i
      = some ((s.replicaSock.drop i).find? fun sock => sends sock = .arrives).join := by
  induction fuel generalizing i with
  | zero => rw [tryClusterFrom, List.drop_eq_nil_of_le (by omega)]; rfl
  | succ fuel ih =>
    have hi : i < s.replicaSock.length := by omega
    rw [tryClusterFrom, List.getElem?_eq_getElem hi, Option.bind_some, List.drop_eq_getElem_cons hi]
    rcases hsends s.replicaSock[i] with harrives | hfails
    · rw [List.find?_cons_of_pos (by simpa using harrives), harrives]
      rfl
    · rw [List.find?_cons_of_neg (by simp [hfails]), hfails]
      exact ih (by omega)

theorem tryCluster_eq {sends : Option Peer → Sending} (hsends : Distribute.Reported sends)
    (h : s.replicaNum = s.replicaSock.length + 1) :
    s.tryCluster sends = some (s.replicaSock.find? fun sock => sends sock = .arrives).join := by
  rw [tryCluster, tryClusterFrom_eq hsends (by omega), List.drop_zero]

end Server

namespace Distribute

variable {cfg : Config} {row : List Replica} {i j c n : ℕ} {s : Server}

/-! ### What the builder leaves -/

/-- The messages of a row leave the table of the clusters. -/
theorem takeAll_replicaComs_clusters (hrow : WellFormedRow row) {s₀ s₁ : Server} {ss : Session}
    {reqs : List (Str × Int)} {r : Session × List Peer} (hreqs : reqs.map Prod.fst = replicaComs row i)
    (h : s₀.takeAll ss reqs = some (s₁, r)) :
    s₁.clusterVec = s₀.clusterVec ∧ s₁.slotStart = s₀.slotStart ∧ s₁.slotEnd = s₀.slotEnd ∧
      s₁.clusterNum = s₀.clusterNum := by
  have hkeeps := Server.takeAll_keeps
    (fun s => (s.clusterVec, s.slotStart, s.slotEnd, s.clusterNum)) (fun req hreq s ss x hx => ?_) h
  · simpa only [Prod.mk.injEq] using hkeeps
  · have hmem : req.1 ∈ replicaComs row i := hreqs ▸ List.mem_map_of_mem hreq
    rcases List.mem_cons.mp hmem with hcom | hcom
    · have hclean : backspace ∉ req.1 := by
        rw [hcom, List.mem_append, not_or]
        exact ⟨by decide, not_mem_toStr (by decide) (by decide) _⟩
      have hws : words (commandPart req.1) = [lit "replicanumber", toStr row.length] := by
        rw [commandPart_of_not_mem hclean, hcom, words_replicanumber]
      rw [scanAndSend_control hws (by decide), route_replicanumber] at hx
      obtain ⟨s', hs', rfl⟩ := Option.map_eq_some_iff.mp hx
      obtain ⟨arg, -, -, rfl⟩ := Server.setReplicaNum_eq_some hs'
      rfl
    · obtain ⟨r', hr', hcom⟩ := List.mem_map.mp hcom
      obtain ⟨port, rest, hws, -⟩ := (hrow.greets r' (List.mem_of_mem_eraseIdx hr')).names
      rw [hcom] at hws
      rw [scanAndSend_control hws (by decide), route_replica] at hx
      obtain ⟨⟨s', p⟩, hadd, rfl⟩ := Option.map_eq_some_iff.mp hx
      rcases Server.replicaAdd_eq_some hadd with ⟨-, ip, port, -, -, -, rfl⟩ | ⟨-, -, rfl⟩
      · rfl
      · rfl

/-- The messages about the clusters leave the sockets of the replicas. -/
theorem takeAll_clustComs_replicas (hwf : ∀ row ∈ cfg, ∀ r ∈ row, r.WellFormed)
    (hrow : cfg[j]? = some row) (hi : i < row.length) {s₁ s₂ : Server} {ss : Session}
    {reqs : List (Str × Int)} {msgs : List Str} {r : Session × List Peer}
    (hmsgs : clustComs cfg i j = some msgs) (hreqs : reqs.map Prod.fst = msgs)
    (h : s₁.takeAll ss reqs = some (s₂, r)) :
    s₂.replicaNum = s₁.replicaNum ∧ s₂.replicaSock = s₁.replicaSock := by
  have hkeeps := Server.takeAll_keeps (fun s => (s.replicaNum, s.replicaSock))
    (fun req hreq s ss x hx => ?_) h
  · simpa only [Prod.mk.injEq] using hkeeps
  · obtain ⟨-, -, hmsgs⟩ := Option.bind_eq_some_iff.mp hmsgs
    have hmem : req.1 ∈ msgs := hreqs ▸ List.mem_map_of_mem hreq
    obtain ⟨k, -, hk⟩ := exists_of_mem_forall₂ (mapM_eq_some_iff.mp hmsgs) hmem
    obtain ⟨r', port, -, -, hclean, hws⟩ := words_clustCom hrow hi hwf hk
    by_cases hkj : k = j
    · rw [if_pos hkj] at hws
      rw [scanAndSend_myinfo hclean hws, Option.some.injEq] at hx
      exact hx ▸ rfl
    · rw [if_neg hkj] at hws
      rw [scanAndSend_clust hclean hws, Option.some.injEq] at hx
      exact hx ▸ rfl

/-- **A node that is placed** knows the other clusters, and has a socket for every other replica. -/
structure Stands (cfg : Config) (row : List Replica) (j : ℕ) (p : Fin row.length) (s : Server) :
    Prop where
  informed : Informed cfg p j s (List.range cfg.length)
  replicaNum : s.replicaNum = row.length
  replicaSock : s.replicaSock = Group.socks p

theorem Placed.stands (hwf : ∀ row ∈ cfg, ∀ r ∈ row, r.WellFormed)
    (hrows : ∀ row ∈ cfg, WellFormedRow row) (hrow : cfg[j]? = some row) {p : Fin row.length}
    (h : Placed cfg p j s) : Stands cfg row j p s := by
  obtain ⟨row', s₀, s₁, s₂, ss₁, ss₂, reqs₁, reqs₂, msgs, r₁, r₂, hrow', hp, ⟨hvec, hstart, hend, hnum⟩,
    hreqs₁, htake₁, hmsgs, hreqs₂, htake₂, hsame⟩ := h
  obtain rfl := Option.some.inj (hrow'.symm.trans hrow)
  have hwfRow := hrows row' (List.mem_of_getElem? hrow)
  obtain ⟨hvec₁, hstart₁, hend₁, hnum₁⟩ := takeAll_replicaComs_clusters hwfRow hreqs₁ htake₁
  obtain ⟨hrepnum, hsock, -⟩ := takeAll_replicaComs hwfRow p.isLt hreqs₁ htake₁
  obtain ⟨hrepnum₂, hsock₂⟩ := takeAll_clustComs_replicas hwf hrow p.isLt hmsgs hreqs₂ htake₂
  refine ⟨Settled.spec hwf ⟨s₂, ?_, hsame.clusterVec, hsame.slotStart, hsame.slotEnd, hsame.clusterNum,
    hsame.startNum, hsame.endNum⟩, hsame.replicaNum.trans (hrepnum₂.trans hrepnum), ?_⟩
  · exact ⟨s₁, ss₂, msgs, reqs₂, r₂, ⟨hvec₁.trans hvec, hstart₁.trans hstart, hend₁.trans hend,
      hnum₁.trans hnum⟩, hmsgs, hreqs₂, htake₂⟩
  · rw [hsame.replicaSock, hsock₂, hsock, Group.eraseIdx_eq_map_others, List.map_map]
    rfl

/-! ### One node -/

theorem nodup_live (sends : Option Peer → Sending) : (live row sends).Nodup :=
  (List.nodup_finRange _).filter _

/-- The first socket that a send reaches is that of the first other replica that it reaches. -/
theorem find?_socks (sends : Option Peer → Sending) (p : Fin row.length) :
    ((Group.socks p).find? fun sock => sends sock = .arrives)
      = (firstOther (live row sends) p).map fun q => some (Group.addr row q) := by
  rw [Group.socks, List.find?_map, Group.others, firstOther, live, List.find?_filter, List.find?_filter]
  congr 2
  funext q
  rw [decide_eq_decide]
  exact and_comm

/-- **Where a node sends a command**: to its peer, or to the first other replica that it reaches. -/
theorem Stands.receiver {p : Fin row.length} (h : Stands cfg row j p s)
    {sends : Option Peer → Sending} (hsends : Reported sends) {index : ℕ} {a : Peer}
    (hvec : s.clusterVec[index]? = some (some a)) :
    s.receiver sends index = some (if sends (some a) = .arrives then some a
      else (firstOther (live row sends) p).map (Group.addr row)) := by
  have hlen : (s.replicaSock.length : Int) + 1 = s.replicaNum := by
    have hothers := congrArg List.length (Group.eraseIdx_eq_map_others p)
    rw [List.length_eraseIdx_of_lt p.isLt, List.length_map] at hothers
    rw [h.replicaSock, h.replicaNum, Group.socks, List.length_map, ← hothers]
    have := p.isLt
    omega
  rw [Server.receiver, hvec, Option.bind_some]
  rcases hsends (some a) with harrives | hfails
  · rw [harrives, if_pos rfl]
  · rw [hfails, if_neg (by decide)]
    dsimp only
    rw [Server.tryCluster_eq hsends hlen.symm, h.replicaSock, find?_socks]
    cases firstOther (live row sends) p with
    | none => rfl
    | some q => rfl

end Distribute

/-! ### The way of a command -/

section Way

open Distribute

variable {cfg : Config} {row : List Replica} {nodes : ℕ → ℕ → ℕ → Server} {sends : Option Peer → Sending}
  {ss₀ ss ss' : Session} {com text text' k : Str} {i i' j j' c n : ℕ} {p q : Fin row.length}

/-- A command that a node refuses leaves the server as it was when it is sent on. -/
theorem server_of_refused {s : Server} {t : Int} {connected : Bool} {y : Scan} {index : ℕ}
    (hnames : Names com k) (href : refused s.w.h (words (commandPart com)) = true)
    (h : scanAndSend s ss com t connected = some y) (hsend : y.send = .peer index text) :
    y.server = s := by
  obtain ⟨word, args, hws, hctl⟩ := hnames
  obtain ⟨⟨msg, w'⟩, hexec, hroute⟩ := Option.bind_eq_some_iff.mp h
  obtain ⟨-, -, -, rfl⟩ := executeWords_refused (by simpa [hws] using hctl) href hexec
  have hrouted := routed hroute
  dsimp only at hrouted
  cases hrouted with
  | ask => rfl
  | _ => exact absurd hsend nofun

/-- A row of a cluster that is built, another cluster that owns a key, and the nodes of both. -/
structure Row (cfg : Config) (nodes : ℕ → ℕ → ℕ → Server) (row : List Replica) (j c : ℕ) (k : Str) :
    Prop where
  distinct : Distinct cfg
  getElem : cfg[j]? = some row
  ne : j ≠ c
  lt : c < cfg.length
  share : InShare totalSlotNum cfg.length c (point k)
  stands : ∀ n p, Stands cfg row j p (nodes n p j)
  owns : ∀ n i r, target cfg i c = some r → notHere (nodes n i c).w.h k = false
  peers : ∀ p : Fin row.length, ∃ r, target cfg p c = some r

variable (hrow : Row cfg nodes row j c k)
include hrow

theorem Row.target (p : Fin row.length) : target cfg p j = some (row.get p) := by
  rw [Distribute.target, hrow.getElem, Option.bind_some]
  exact List.getElem?_eq_getElem p.isLt

theorem Row.leadsTo (n : ℕ) (p : Fin row.length) :
    ∃ index, LeadsTo cfg p (nodes n p j) c k index := by
  obtain ⟨r, hr⟩ := hrow.peers p
  have hj := (List.getElem?_eq_some_iff.mp hrow.getElem).1
  exact (hrow.stands n p).informed.leadsTo hj hrow.lt hrow.ne hr hrow.share

/-- **One step**: a command comes from a node of the row to its peer, or to the first other replica that
a send reaches. -/
theorem Row.step (hsends : Reported sends) (hnames : Names text k) {t : Int} {connected : Bool} {y : Scan} {index : ℕ}
    {r : Replica} (hkey : refused (nodes n p j).w.h (words (commandPart text)) = true)
    (hscan : scanAndSend (nodes n p j) ss text t connected = some y)
    (hsend : y.send = .peer index text')
    (hpeer : y.server.receiver sends index = some (some r.peer))
    (hnode : Distribute.target cfg i' j' = some r) :
    (Asks cfg sends c p ∧ i' = p ∧ j' = c) ∨
      (¬ Asks cfg sends c p ∧ ∃ q, firstOther (live row sends) p = some q ∧ i' = q ∧ j' = j) := by
  obtain ⟨index₀, hleads⟩ := hrow.leadsTo n p
  obtain ⟨y₀, hy₀, hsend₀⟩ := hleads.scanAndSend hnames ss t connected
  obtain rfl := Option.some.inj (hy₀.symm.trans hscan)
  obtain ⟨rfl, -⟩ := Send.peer.inj (hsend₀.symm.trans hsend)
  obtain ⟨r₀, hr₀, hvec⟩ := hleads.names
  rw [server_of_refused hnames hkey hscan hsend, (hrow.stands n p).receiver hsends hvec]
    at hpeer
  by_cases hup : sends (some r₀.peer) = .arrives
  · rw [if_pos hup] at hpeer
    obtain ⟨rfl, rfl⟩ := hrow.distinct _ _ _ _ _ _ hnode hr₀
      (Option.some.inj (Option.some.inj hpeer)).symm
    exact Or.inl ⟨⟨r₀, hr₀, hup⟩, rfl, rfl⟩
  · rw [if_neg hup] at hpeer
    obtain ⟨q, hq, heq⟩ := Option.map_eq_some_iff.mp (Option.some.inj hpeer)
    obtain ⟨rfl, rfl⟩ := hrow.distinct _ _ _ _ _ _ hnode (hrow.target q) heq.symm
    refine Or.inr ⟨?_, q, hq, rfl, rfl⟩
    rintro ⟨r', hr', hup'⟩
    obtain rfl := Option.some.inj (hr₀.symm.trans hr')
    exact hup hup'

/-- **The way of a command**: it is handed on in the row, and then it is at the owner. -/
theorem Travels.handedOn (hsends : Reported sends) (hnames : Names com k)
    (h : Travels cfg nodes sends ss₀ com p j n i j' ss text) :
    words (commandPart text) = words (commandPart com) ∧
      ((j' = j ∧ ∃ q : Fin row.length, i = q ∧
          HandedOn (live row sends) (fun q : Fin row.length => Asks cfg sends c q) p n q) ∨
        (j' = c ∧ (∃ r, Distribute.target cfg i c = some r) ∧ ∃ (m : ℕ) (q : Fin row.length),
          HandedOn (live row sends) (fun q : Fin row.length => Asks cfg sends c q) p m q ∧
            Asks cfg sends c q)) := by
  induction h with
  | client => exact ⟨rfl, Or.inl ⟨rfl, p, rfl, .start⟩⟩
  | @sent n i j i' j' ss ss' text text' h t connected y index r hkey hscan hsend hpeer hnode _ _ ih =>
    obtain ⟨hws, hat⟩ := ih
    have hnames' : Names text k := by rwa [Names, hws]
    refine ⟨?_, ?_⟩
    · rw [eq_forwarded_of_peer hscan hsend, words_commandPart_forwarded not_mem_commandPart, hws]
    rcases hat with ⟨rfl, q, rfl, hq⟩ | ⟨rfl, ⟨r, hr⟩, -⟩
    · rcases hrow.step hsends hnames' hkey hscan hsend hpeer hnode with
        ⟨hasks, rfl, rfl⟩ | ⟨hnot, q', hq', rfl, rfl⟩
      · exact Or.inr ⟨rfl, ⟨_, hnode⟩, _, q, hq, hasks⟩
      · exact Or.inl ⟨rfl, q', rfl, hq.next hnot hq'⟩
    · -- the owner does not refuse the key, so it sends nothing
      obtain ⟨word, args, hcom, -⟩ := hnames'
      obtain ⟨k', hk', hnot⟩ := refused_iff.mp hkey
      rw [hcom] at hk'
      obtain rfl := Option.some.inj hk'
      exact absurd ((hrow.owns _ _ r hr).symm.trans hnot) Bool.false_ne_true

/-- A node of the row sends a command on, if it still fits a buffer. -/
theorem Row.send (hsends : Reported sends) (hnames : Names com k)
    (h : Travels cfg nodes sends ss₀ com p j n q j ss text)
    (hwhole : (forwarded ss (commandPart text)).length < 1024) {r : Replica}
    (hnode : Distribute.target cfg i' j' = some r)
    (hto : (Asks cfg sends c q ∧ i' = q ∧ j' = c) ∨
      (¬ Asks cfg sends c q ∧ ∃ q', firstOther (live row sends) q = some q' ∧ i' = q' ∧ j' = j)) :
    Travels cfg nodes sends ss₀ com p j (n + 1) i' j' {} (forwarded ss (commandPart text)) := by
  have hws := (h.handedOn hrow hsends hnames).1
  have hnames' : Names text k := by rwa [Names, hws]
  obtain ⟨index, hleads⟩ := hrow.leadsTo n q
  obtain ⟨y, hy, hsend⟩ := hleads.scanAndSend hnames' ss 0 true
  have hkey : refused (nodes n q j).w.h (words (commandPart text)) = true := by
    obtain ⟨word, args, hcom, -⟩ := hnames'
    exact refused_iff.mpr ⟨k, by rw [hcom]; rfl, hleads.refuses⟩
  obtain ⟨r₀, hr₀, hvec⟩ := hleads.names
  refine h.sent hkey hy hsend ?_ hnode hwhole rfl
  rw [server_of_refused hnames' hkey hy hsend, (hrow.stands n q).receiver hsends hvec]
  rcases hto with ⟨⟨r', hr', hup⟩, rfl, rfl⟩ | ⟨hnot, q', hq', rfl, rfl⟩
  · obtain rfl := Option.some.inj (hr₀.symm.trans hr')
    obtain rfl := Option.some.inj (hr₀.symm.trans hnode)
    rw [if_pos hup]
  · obtain rfl := Option.some.inj ((hrow.target q').symm.trans hnode)
    rw [if_neg fun hup => hnot ⟨r₀, hr₀, hup⟩, hq']
    rfl

/-- **All steps in the row**: the text grows by a blank at each of them. -/
theorem Row.travels (hsends : Reported sends) (hnames : Names com k)
    (hq : HandedOn (live row sends) (fun q : Fin row.length => Asks cfg sends c q) p n q)
    (hfit : (forwarded ss₀ (commandPart com)).length + n ≤ 1024) :
    ∃ ss text, Travels cfg nodes sends ss₀ com p j n q j ss text ∧
      (forwarded ss (commandPart text)).length ≤ (forwarded ss₀ (commandPart com)).length + n := by
  induction hq with
  | start => exact ⟨ss₀, com, .client, le_rfl⟩
  | @next n q q' _ hnot hnext ih =>
    obtain ⟨ss, text, h, hlen⟩ := ih (by omega)
    refine ⟨{}, _, hrow.send hsends hnames h (by omega) (hrow.target q')
      (Or.inr ⟨hnot, q', hnext, rfl, rfl⟩), ?_⟩
    have hpos : 0 < (toStr ss.auth).length := List.length_pos_of_ne_nil (toStr_ne_nil _)
    have hzero : (toStr ({} : Session).auth).length = 1 := by decide
    rw [length_forwarded] at hlen
    rw [length_forwarded, hzero, commandPart_forwarded not_mem_commandPart, List.length_append,
      List.length_singleton]
    omega

end Way

/-! ### A cluster that is built -/

namespace Distribute

variable {cfg : Config} {row : List Replica} {nodes : ℕ → ℕ → ℕ → Server} {sends : Option Peer → Sending}
  {ss₀ : Session} {com k : Str} {j c : ℕ}

/-- A cluster behind the builder: its lines are of the documented form, no two nodes have the same
address, and every node is placed at any time. -/
structure Running (cfg : Config) (nodes : ℕ → ℕ → ℕ → Server) : Prop where
  wellFormed : ∀ row ∈ cfg, ∀ r ∈ row, r.WellFormed
  rows : ∀ row ∈ cfg, WellFormedRow row
  distinct : Distinct cfg
  placed : ∀ n i j, (target cfg i j).isSome → Placed cfg i j (nodes n i j)

theorem Running.inRow (h : Running cfg nodes) (hrow : cfg[j]? = some row) (hc : c < cfg.length)
    (hne : j ≠ c) (hkey : Server.Within (Hash.hashFunc k) (slotStart cfg c, slotEnd cfg c)) :
    Row cfg nodes row j c k := by
  have hshare : InShare totalSlotNum cfg.length c (point k) := by rwa [← within_iff, point_eq]
  have htarget : ∀ p : Fin row.length, (target cfg p j).isSome := by
    intro p
    rw [target, hrow, Option.bind_some, List.getElem?_eq_getElem p.isLt]
    rfl
  refine ⟨h.distinct, hrow, hne, hc, hshare,
    fun n p => (h.placed n p j (htarget p)).stands h.wellFormed h.rows hrow, fun n i r hr => ?_,
    fun p => ?_⟩
  · obtain ⟨row', hrow', hr'⟩ := Option.bind_eq_some_iff.mp hr
    obtain ⟨hi, -⟩ := List.getElem?_eq_some_iff.mp hr'
    have hstands := Placed.stands (p := ⟨i, hi⟩) h.wellFormed h.rows hrow'
      (h.placed n i c (Option.isSome_of_eq_some hr))
    exact (hstands.informed.notHere_iff hc k).mpr hshare
  · -- the builder found a peer for every replica
    obtain ⟨row', _, _, _, _, _, _, _, msgs, _, _, hrow', hp, _, _, _, hmsgs, -⟩ :=
      h.placed 0 p j (htarget p)
    obtain ⟨_, _, hmsgs⟩ := Option.bind_eq_some_iff.mp hmsgs
    obtain ⟨msg, hmsg⟩ := exists_mapM_eq_some.mp ⟨msgs, hmsgs⟩ c (List.mem_range.mpr hc)
    obtain ⟨r, -, hr, -⟩ := words_clustCom hrow' hp h.wellFormed hmsg
    exact ⟨r, hr⟩

/-- **A command gets to the cluster that owns its key if and only if** a send from the node it came to
reaches its peer there, or a send from one of the first two replicas that are reached does; no other
replica gets it. -/
theorem reachesOwner_iff (h : Running cfg nodes) (hsends : Reported sends) (hrow : cfg[j]? = some row)
    (p : Fin row.length) (hnames : Names com k) (hc : c < cfg.length) (hne : j ≠ c)
    (hkey : Server.Within (Hash.hashFunc k) (slotStart cfg c, slotEnd cfg c))
    (hfit : (forwarded ss₀ (commandPart com)).length + 2 < 1024) :
    ((∃ n i ss text, Travels cfg nodes sends ss₀ com p j n i c ss text) ↔
      Asks cfg sends c p ∨ ∃ q ∈ (live row sends).take 2, Asks cfg sends c q) ∧
    ∀ n i ss text, Travels cfg nodes sends ss₀ com p j n i j ss text →
      i = p ∨ ∃ q ∈ (live row sends).take 2, i = q := by
  have hway := h.inRow hrow hc hne hkey
  refine ⟨⟨?_, fun hable => ?_⟩, fun n i ss text htravels => ?_⟩
  · rintro ⟨n, i, ss, text, htravels⟩
    rcases (htravels.handedOn hway hsends hnames).2 with ⟨heq, -⟩ | ⟨-, -, m, q, hq, hasks⟩
    · exact absurd heq.symm hne
    · exact (exists_able_iff (nodup_live sends)).mp ⟨m, q, hq, hasks⟩
  · obtain ⟨n, q, hn, hq, hasks⟩ :=
      @exists_handedOn _ _ _ (fun q : Fin row.length => Asks cfg sends c q) _ (nodup_live sends) hable
    have hfit' : (forwarded ss₀ (commandPart com)).length + n ≤ 1024 := by omega
    obtain ⟨ss, text, htravels, hlen⟩ := hway.travels hsends hnames hq hfit'
    obtain ⟨r, hr, hup⟩ := hasks
    exact ⟨n + 1, q, {}, _,
      hway.send hsends hnames htravels (by omega) hr (Or.inl ⟨⟨r, hr, hup⟩, rfl, rfl⟩)⟩
  · rcases (htravels.handedOn hway hsends hnames).2 with ⟨-, q, rfl, hq⟩ | ⟨heq, -⟩
    · rcases hq.mem (nodup_live sends) with rfl | hmem
      · exact Or.inl rfl
      · exact Or.inr ⟨q, hmem, rfl⟩
    · exact absurd heq hne

/-- **A command is handed on more than twice if and only if** it does not get to that cluster and sends
reach two replicas: they send it to each other, as long as it fits a buffer. -/
theorem handedBackAndForth_iff (h : Running cfg nodes) (hsends : Reported sends)
    (hrow : cfg[j]? = some row) (p : Fin row.length) (hnames : Names com k) (hc : c < cfg.length)
    (hne : j ≠ c) (hkey : Server.Within (Hash.hashFunc k) (slotStart cfg c, slotEnd cfg c)) {n : ℕ}
    (hn : 2 < n) (hfit : (forwarded ss₀ (commandPart com)).length + n ≤ 1024) :
    ((∃ i ss text, Travels cfg nodes sends ss₀ com p j n i j ss text) ↔
      2 ≤ (live row sends).length ∧
        ¬ (Asks cfg sends c p ∨ ∃ q ∈ (live row sends).take 2, Asks cfg sends c q)) ∧
    ∀ i i' ss ss' text text', Travels cfg nodes sends ss₀ com p j n i j ss text →
      Travels cfg nodes sends ss₀ com p j (n + 1) i' j ss' text' →
        ∃ q q', (live row sends).take 2 = [q, q'] ∧ (i = q ∧ i' = q' ∨ i = q' ∧ i' = q) := by
  have hway := h.inRow hrow hc hne hkey
  rw [← @exists_handedOn_iff _ _ _ (fun q : Fin row.length => Asks cfg sends c q) _ _
    (nodup_live sends) hn]
  -- a command that is still in the row is where the replicas have handed it
  have hat : ∀ {n i ss text}, Travels cfg nodes sends ss₀ com p j n i j ss text →
      ∃ q : Fin row.length, i = q ∧
        HandedOn (live row sends) (fun q : Fin row.length => Asks cfg sends c q) p n q := by
    intro n i ss text htravels
    rcases (htravels.handedOn hway hsends hnames).2 with ⟨-, hq⟩ | ⟨heq, -⟩
    · exact hq
    · exact absurd heq hne
  refine ⟨⟨?_, ?_⟩, fun i i' ss ss' text text' htravels htravels' => ?_⟩
  · rintro ⟨i, ss, text, htravels⟩
    obtain ⟨q, -, hq⟩ := hat htravels
    exact ⟨q, hq⟩
  · rintro ⟨q, hq⟩
    obtain ⟨ss, text, htravels, -⟩ := hway.travels hsends hnames hq hfit
    exact ⟨q, ss, text, htravels⟩
  · obtain ⟨m, rfl⟩ := Nat.exists_eq_succ_of_ne_zero (Nat.ne_of_gt (Nat.zero_lt_of_lt hn))
    obtain ⟨q, rfl, hq⟩ := hat htravels
    obtain ⟨q', rfl, hq'⟩ := hat htravels'
    obtain ⟨x, y, htake, hxy⟩ := hq.alternates (nodup_live sends) hq'
    exact ⟨x, y, htake, by simpa only [Fin.val_inj] using hxy⟩

/-! ### Two clusters of two replicas -/

/-- A node as the builder leaves it, with all messages at the time `0`. -/
def builtNode (cfg : Config) (i j : ℕ) : Option Server :=
  cfg[j]?.bind fun row => (clustComs cfg i j).bind fun msgs =>
    (Server.takeAll { w := World.fresh 5001 } {} ((replicaComs row i).map fun com => (com, 0))).bind
      fun r => (r.1.takeAll {} (msgs.map fun com => (com, 0))).map Prod.fst

theorem placed_builtNode {s : Server} {i : ℕ} (hi : (target cfg i j).isSome)
    (h : builtNode cfg i j = some s) : Placed cfg i j s := by
  obtain ⟨row, hrow, h⟩ := Option.bind_eq_some_iff.mp h
  obtain ⟨msgs, hmsgs, h⟩ := Option.bind_eq_some_iff.mp h
  obtain ⟨⟨s₁, r₁⟩, htake₁, h⟩ := Option.bind_eq_some_iff.mp h
  obtain ⟨⟨s₂, r₂⟩, htake₂, rfl⟩ := Option.map_eq_some_iff.mp h
  obtain ⟨r, hr⟩ := Option.isSome_iff_exists.mp hi
  rw [target, hrow, Option.bind_some] at hr
  have hfst : ∀ coms : List Str, (coms.map fun com => (com, (0 : Int))).map Prod.fst = coms := by
    intro coms
    rw [List.map_map]
    exact List.map_id coms
  exact ⟨row, { w := World.fresh 5001 }, s₁, s₂, {}, {}, _, _, msgs, r₁, r₂, hrow,
    (List.getElem?_eq_some_iff.mp hr).1, ⟨rfl, rfl, rfl, rfl⟩, hfst _, htake₁, hmsgs, hfst _, htake₂,
    ⟨rfl, rfl, rfl, rfl, rfl, rfl, rfl, rfl⟩⟩

def quadRows : Config :=
  config [[localPort 5001, localPort 5002], [localPort 5003, localPort 5004]]

def quadNode (i j : ℕ) : Server := (builtNode quadRows i j).getD { w := World.fresh 5001 }

/-- A line without a backspace. -/
theorem replica_wellFormed {a : Address} (h : backspace ∉ line a) :
    (replica a).WellFormed ∧ (replica a).Greets :=
  ⟨⟨h, _, a.words_text, rfl⟩, h, _, [], words_line _, rfl⟩

theorem replica_localPort (port : ℕ) :
    (replica (localPort port)).WellFormed ∧ (replica (localPort port)).Greets := by
  have hclean : backspace ∉ line (localPort port) := by
    have hnum : backspace ∉ toStr (port : Int) := not_mem_toStr (by decide) (by decide) _
    simp only [line, Address.text, localPort, List.mem_append, List.mem_cons, hnum, or_false]
    decide
  exact replica_wellFormed hclean

theorem lt_of_target_quad {i : ℕ} {r : Replica} (h : target quadRows i j = some r) : i < 2 ∧ j < 2 := by
  obtain ⟨row, hrow, hr⟩ := Option.bind_eq_some_iff.mp h
  have hi := (List.getElem?_eq_some_iff.mp hr).1
  have hlen : ∀ row ∈ quadRows, row.length = 2 := by decide
  rw [hlen row (List.mem_of_getElem? hrow)] at hi
  exact ⟨hi, (List.getElem?_eq_some_iff.mp hrow).1⟩

theorem running_quad : Running quadRows fun _ => quadNode := by
  have hlines : ∀ row ∈ quadRows, ∀ r ∈ row, r.WellFormed ∧ r.Greets := by
    simp only [quadRows, config, List.map_cons, List.map_nil, List.forall_mem_cons, List.not_mem_nil,
      IsEmpty.forall_iff, implies_true, and_true]
    exact ⟨⟨replica_localPort _, replica_localPort _⟩, replica_localPort _, replica_localPort _⟩
  have hpeers : ∀ i j i' j' : Fin 2,
      (target quadRows i j).map Replica.peer = (target quadRows i' j').map Replica.peer →
        i = i' ∧ j = j' := by decide
  refine ⟨fun row hrow r hr => (hlines row hrow r hr).1, fun row hrow => ⟨fun r hr =>
    (hlines row hrow r hr).2, ?_, ?_⟩, ?_, fun _ i j h => ?_⟩
  · revert row
    decide
  · have hlen : ∀ row ∈ quadRows, row.length < 2 ^ 31 := by decide
    exact hlen row hrow
  · intro i j i' j' r r' hr hr' hpeer
    obtain ⟨hi, hj⟩ := lt_of_target_quad hr
    obtain ⟨hi', hj'⟩ := lt_of_target_quad hr'
    obtain ⟨heq, heq'⟩ := hpeers ⟨i, hi⟩ ⟨j, hj⟩ ⟨i', hi'⟩ ⟨j', hj'⟩
      (by rw [hr, hr', Option.map_some, Option.map_some, hpeer])
    exact ⟨congrArg Fin.val heq, congrArg Fin.val heq'⟩
  · have hbuilt : (builtNode quadRows i j).isSome := by
      obtain ⟨r, hr⟩ := Option.isSome_iff_exists.mp h
      obtain ⟨hi, hj⟩ := lt_of_target_quad hr
      interval_cases i <;> interval_cases j <;> rfl
    obtain ⟨s, hs⟩ := Option.isSome_iff_exists.mp hbuilt
    rw [quadNode, hs]
    exact placed_builtNode h hs

/-- The second cluster owns the key `k`. -/
theorem within_quad :
    Server.Within (Hash.hashFunc (lit "k")) (slotStart quadRows 1, slotEnd quadRows 1) := by
  rw [Server.Within]
  decide

/-- The peer of the first node is down, and the command gets to the other cluster by its replica. -/
theorem reachesOwner_quad : ∃ n i ss text, Travels quadRows (fun _ => quadNode)
    (fun a => if a = some (lit "127.0.0.1", 5003) then .fails else .arrives) {} (lit "get k")
    0 0 n i 1 ss text := by
  have hsends : Reported fun a => if a = some (lit "127.0.0.1", 5003) then .fails else .arrives := by
    intro a
    dsimp only
    split_ifs
    · exact Or.inr rfl
    · exact Or.inl rfl
  refine (reachesOwner_iff running_quad hsends (j := 0) (c := 1) rfl ⟨0, by decide⟩ get_k_names
    (by decide) (by decide) within_quad (by decide)).1.mpr
    (Or.inr ⟨⟨1, by decide⟩, by decide, _, rfl, by decide⟩)

/-- The sends reach the first cluster only. -/
def ownRow (a : Option Peer) : Sending :=
  if a = some (lit "127.0.0.1", 5001) ∨ a = some (lit "127.0.0.1", 5002) then .arrives else .fails

theorem reported_ownRow : Reported ownRow := by
  intro a
  unfold ownRow
  split_ifs
  · exact Or.inl rfl
  · exact Or.inr rfl

/-- The other cluster is down, and the two replicas send the command to each other. -/
theorem handedBackAndForth_quad : ∃ i ss text, Travels quadRows (fun _ => quadNode) ownRow {}
    (lit "get k") 0 0 3 i 0 ss text := by
  have hdown : ∀ i, ¬ Asks quadRows ownRow 1 i := by
    rintro i ⟨r, hr, hup⟩
    obtain ⟨hi, -⟩ := lt_of_target_quad hr
    interval_cases i
    · obtain rfl := Option.some.inj hr
      exact absurd hup (by decide)
    · obtain rfl := Option.some.inj hr
      exact absurd hup (by decide)
  exact (handedBackAndForth_iff running_quad reported_ownRow (j := 0) (c := 1) rfl ⟨0, by decide⟩
    get_k_names (by decide) (by decide) within_quad (by decide) (by decide)).1.mpr ⟨by decide, by
      rintro (h | ⟨q, -, h⟩)
      · exact hdown _ h
      · exact hdown _ h⟩

end Distribute

end MuseKv
