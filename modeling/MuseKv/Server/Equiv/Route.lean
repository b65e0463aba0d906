import MuseKv.Command.Equiv.Shown
import MuseKv.Command.Equiv.RoundTrip
import MuseKv.Server.Basic

/-!
# Where `scan_and_send` sends a message

`execute` tells `scan_and_send` by the text of its reply that a key belongs to another node, and
`scan_and_send` searches that text in every reply.  So a message goes where its key belongs unless
the reply quotes the word from somewhere else.  `scanAndSend_client` and `scanAndSend_ask` are the two
branches that a command other than a control word can rightly take; **`routedByKey_iff`** says when it
takes the right one.

The words of a message are those in front of a suffix, where `scan_and_send` cuts it.
-/

namespace MuseKv

open Kvstore Command

/-! ### The search of the bounds -/

namespace Server

/-- The entry `index` of the two vectors of bounds, if both have one. -/
def range (s : Server) (index : ℕ) : Option (Int × Int) :=
  s.slotStart[index]?.bind fun start => s.slotEnd[index]?.map fun last => (start, last)

/-- A hash within a pair of bounds. -/
def Within (keyVal : Int) (r : Int × Int) : Prop := r.1 ≤ keyVal ∧ keyVal ≤ r.2

/-- The index at which the search for a hash stops: it passed pairs of bounds that do not contain the
hash, and either it is through or the next pair does. -/
structure Stops (s : Server) (keyVal : Int) (index : ℕ) : Prop where
  le : index ≤ s.clusterNum
  passed : ∀ i < index, ∃ r, s.range i = some r ∧ ¬ Within keyVal r
  found : index < s.clusterNum → ∃ r, s.range index = some r ∧ Within keyVal r

theorem searchFrom_eq_some {s : Server} {keyVal : Int} {fuel i index : ℕ} :
    s.searchFrom keyVal fuel i = some index ↔
      i ≤ index ∧ index ≤ i + fuel ∧
        (∀ j, i ≤ j → j < index → ∃ r, s.range j = some r ∧ ¬ Within keyVal r) ∧
        (index < i + fuel → ∃ r, s.range index = some r ∧ Within keyVal r) := by
  induction fuel generalizing i with
  | zero =>
    rw [searchFrom, Option.some.injEq]
    constructor
    · rintro rfl
      exact ⟨le_rfl, le_rfl, fun j h₁ h₂ => absurd h₂ (not_lt.mpr h₁), fun h => absurd h (lt_irrefl _)⟩
    · rintro ⟨h₁, h₂, -, -⟩
      exact le_antisymm h₁ h₂
  | succ fuel ih =>
    -- one round looks at the pair of bounds of its entry
    have hstep : s.searchFrom keyVal (fuel + 1) i = (s.range i).bind fun r =>
        if r.1 ≤ keyVal ∧ keyVal ≤ r.2 then some i else s.searchFrom keyVal fuel (i + 1) := by
      rw [searchFrom, range]
      cases s.slotStart[i]? with
      | none => rfl
      | some start =>
        cases s.slotEnd[i]? with
        | none => rfl
        | some last => simp
    rw [hstep]
    cases hr : s.range i with
    | none =>
      refine ⟨fun h => absurd h (by simp), ?_⟩
      rintro ⟨h₁, h₂, hpassed, hfound⟩
      -- the search cannot get past an entry that is missing
      rcases h₁.eq_or_lt with rfl | hlt
      · obtain ⟨r, hr', -⟩ := hfound (by omega)
        rw [hr] at hr'
        exact absurd hr' (by simp)
      · obtain ⟨r, hr', -⟩ := hpassed i le_rfl hlt
        rw [hr] at hr'
        exact absurd hr' (by simp)
    | some r =>
      rw [Option.bind_some]
      split_ifs with hin
      · rw [Option.some.injEq]
        constructor
        · rintro rfl
          exact ⟨le_rfl, by omega, fun j h₁ h₂ => absurd h₂ (not_lt.mpr h₁), fun _ => ⟨r, hr, hin⟩⟩
        · -- a later entry would have been passed on the way
          rintro ⟨h₁, -, hpassed, -⟩
          by_contra hne
          obtain ⟨r', hr', hout⟩ := hpassed i le_rfl (lt_of_le_of_ne h₁ hne)
          rw [hr, Option.some.injEq] at hr'
          exact hout (hr' ▸ hin)
      · rw [ih]
        constructor
        · rintro ⟨h₁, h₂, hpassed, hfound⟩
          refine ⟨by omega, by omega, fun j hj hlt => ?_, fun h => hfound (by omega)⟩
          rcases hj.eq_or_lt with rfl | hj
          · exact ⟨r, hr, hin⟩
          · exact hpassed j hj hlt
        · rintro ⟨h₁, h₂, hpassed, hfound⟩
          rcases h₁.eq_or_lt with rfl | hlt
          · obtain ⟨r', hr', hin'⟩ := hfound (by omega)
            rw [hr, Option.some.injEq] at hr'
            exact absurd (hr' ▸ hin') hin
          · exact ⟨hlt, by omega, fun j hj => hpassed j (by omega), fun h => hfound (by omega)⟩

/-- **The loop stops at the first pair of bounds that contains the hash**, or behind the last. -/
theorem search_eq_some {s : Server} {keyVal : Int} {index : ℕ} :
    s.search keyVal = some index ↔ s.Stops keyVal index := by
  rw [search, searchFrom_eq_some, zero_add]
  constructor
  · rintro ⟨-, hle, hpassed, hfound⟩
    exact ⟨hle, fun i hi => hpassed i (Nat.zero_le _) hi, hfound⟩
  · rintro ⟨hle, hpassed, hfound⟩
    exact ⟨Nat.zero_le _, hle, fun i _ hi => hpassed i hi, hfound⟩

/-- A node that can be asked for a hash: the search stops at an entry of `cluster_vec`. -/
def CanAsk (s : Server) (keyVal : Int) : Prop :=
  ∃ index < s.clusterVec.length, s.Stops keyVal index

end Server

/-! ### The branches -/

/-- The refusal of a key names its hash. -/
theorem executeWords_refused {ws : List Str} {auth : UInt8} {t : Int} {w w' : World} {msg : Str}
    (hctl : ∀ word ∈ ws.head?, word ∉ controlWords) (href : refused w.h ws = true)
    (h : executeWords ws auth t w = some (msg, w')) :
    ∃ k, ws[1]? = some k ∧ msg = lit "hashval " ++ toStr (Hash.hashFunc k) ∧ w' = w := by
  match ws with
  | [] => exact absurd href (by simp [refused])
  | [word] => exact absurd href (by simp [refused])
  | word :: k :: args =>
    have href' : (k :: args).head?.any (notHere w.h) = true := href
    rw [executeWords, if_neg (hctl word rfl), if_pos href'] at h
    obtain ⟨rfl, rfl⟩ := Prod.mk.inj (Option.some.inj h)
    exact ⟨k, rfl, rfl, rfl⟩

/-- A text with the mark of a refusal is none of the control replies. -/
theorem ne_magic_of_hashval {msg word : Str} (hm : lit "hashval" <:+: msg)
    (hword : word ∈ controlWords) : msg ≠ magic word := by
  rintro rfl
  have hall : ∀ word ∈ controlWords, ¬ lit "hashval" <:+: magic word := by decide
  exact hall word hword hm

theorem atoi_toStr_hashFunc (k : Str) : atoi (toStr (Hash.hashFunc k)) = Hash.hashFunc k := by
  obtain ⟨hlo, hhi⟩ := Hash.hashFunc_bounds k
  exact atoi_toStr_self (by omega) (lt_trans hhi (by norm_num))

/-- The branch for a reply without a mark. -/
theorem route_client {s : Server} {ss : Session} {com msg : Str} {connected : Bool}
    (h : ¬ Marked msg) :
    route s ss com connected msg = some
      { server := s
        session := ss
        send := .client msg
        log := if commandType com = .write then
            some (commandPart com ++ backspace :: byte ' ' :: toStr (authority ss com)) else none
        autoSend := if ss.autoSendYes && commandType com = .write && s.replicaNum ≠ 0 then
            some (commandPart com) else none } := by
  obtain ⟨hhash, hmagic⟩ := not_or.mp h
  have hne : ∀ word ∈ controlWords, msg ≠ magic word := fun word hw heq => hmagic ⟨word, hw, heq⟩
  simp only [controlWords, List.forall_mem_cons, List.not_mem_nil, IsEmpty.forall_iff,
    implies_true, and_true] at hne
  obtain ⟨h₁, h₂, h₃, h₄, h₅, h₆, h₇⟩ := hne
  rw [route, if_neg h₁, if_neg h₂, if_neg h₃, if_neg h₄, if_neg h₅, if_neg h₆, if_neg h₇,
    if_neg (by simpa [contains] using hhash)]

/-- The branch for a reply with the mark of a refusal. -/
theorem route_ask {s : Server} {ss : Session} {com msg : Str} {connected : Bool}
    (h : lit "hashval" <:+: msg) :
    route s ss com connected msg =
      (ask s (forwarded ss (commandPart com)) msg).map fun send =>
        ⟨s, ss, send, none, none, none⟩ := by
  have hne : ∀ word ∈ controlWords, msg ≠ magic word := fun word => ne_magic_of_hashval h
  simp only [controlWords, List.forall_mem_cons, List.not_mem_nil, IsEmpty.forall_iff,
    implies_true, and_true] at hne
  obtain ⟨h₁, h₂, h₃, h₄, h₅, h₆, h₇⟩ := hne
  rw [route, if_neg h₁, if_neg h₂, if_neg h₃, if_neg h₄, if_neg h₅, if_neg h₆, if_neg h₇,
    if_pos (by simpa [contains] using h)]

/-- What is asked of another node goes to a peer, or nowhere. -/
theorem eq_peer_of_ask {s : Server} {com msg : Str} {send : Send} (h : ask s com msg = some send) :
    ∃ index, send = .peer index com := by
  obtain ⟨hash, -, h⟩ := Option.bind_eq_some_iff.mp h
  obtain ⟨index, -, h⟩ := Option.bind_eq_some_iff.mp h
  obtain ⟨-, -, rfl⟩ := Option.map_eq_some_iff.mp h
  exact ⟨index, rfl⟩

section Magic

variable {s : Server} {ss : Session} {com : Str} {connected : Bool}

/-! The branches for the control replies. -/

theorem route_client_word : route s ss com connected (magic (lit "client")) =
    (substr (commandPart com) 7).map fun a =>
      ⟨s, { ss with auth := atoi a }, .client (toStr s.replicaNum), none, none, none⟩ := by
  rw [route, if_pos rfl]

theorem route_give : route s ss com connected (magic (lit "give")) =
    (s.giveReplicaInfo (commandPart com)).map fun info => ⟨s, ss, .client info, none, none, none⟩ := by
  rw [route, if_neg (by decide), if_pos rfl]

theorem route_clust : route s ss com connected (magic (lit "clust")) =
    (s.clusterConnect (commandPart com) connected).map fun s =>
      ⟨s, ss, .client (magic (lit "clust")), none, none, none⟩ := by
  rw [route, if_neg (by decide), if_neg (by decide), if_pos rfl]

theorem route_myinfo : route s ss com connected (magic (lit "myinfo")) =
    (s.hashReset (commandPart com)).map fun s =>
      ⟨s, ss, .client (magic (lit "myinfo")), none, none, none⟩ := by
  rw [route, if_neg (by decide), if_neg (by decide), if_neg (by decide), if_pos rfl]

theorem route_replicanumber : route s ss com connected (magic (lit "replicanumber")) =
    (s.setReplicaNum (commandPart com)).map fun s =>
      ⟨s, ss, .client (magic (lit "replicanumber")), none, none, none⟩ := by
  rw [route, if_neg (by decide), if_neg (by decide), if_neg (by decide), if_neg (by decide), if_pos rfl]

theorem route_replica : route s ss com connected (magic (lit "replica")) =
    (s.replicaAdd (commandPart com) connected).map fun r =>
      ⟨r.1, ss, .client (magic (lit "replica")), none, none, r.2⟩ := by
  rw [route, if_neg (by decide), if_neg (by decide), if_neg (by decide), if_neg (by decide),
    if_neg (by decide), if_pos rfl]

theorem route_replicaaccept : route s ss com connected (magic (lit "replicaaccept")) =
    some ⟨s, { ss with autoSendYes := false }, .nothing, none, none, none⟩ := by
  rw [route, if_neg (by decide), if_neg (by decide), if_neg (by decide), if_neg (by decide),
    if_neg (by decide), if_neg (by decide), if_pos rfl]

end Magic

/-- What `scan_and_send` does behind a reply of `execute`, a constructor for each branch. -/
inductive Routed (s : Server) (ss : Session) (com : Str) (connected : Bool) : Str → Scan → Prop
  | client {a : Str} (h : substr (commandPart com) 7 = some a) :
      Routed s ss com connected (magic (lit "client"))
        ⟨s, { ss with auth := atoi a }, .client (toStr s.replicaNum), none, none, none⟩
  | give {info : Str} (h : s.giveReplicaInfo (commandPart com) = some info) :
      Routed s ss com connected (magic (lit "give")) ⟨s, ss, .client info, none, none, none⟩
  | clust {s' : Server} (h : s.clusterConnect (commandPart com) connected = some s') :
      Routed s ss com connected (magic (lit "clust"))
        ⟨s', ss, .client (magic (lit "clust")), none, none, none⟩
  | myinfo {s' : Server} (h : s.hashReset (commandPart com) = some s') :
      Routed s ss com connected (magic (lit "myinfo"))
        ⟨s', ss, .client (magic (lit "myinfo")), none, none, none⟩
  | replicanumber {s' : Server} (h : s.setReplicaNum (commandPart com) = some s') :
      Routed s ss com connected (magic (lit "replicanumber"))
        ⟨s', ss, .client (magic (lit "replicanumber")), none, none, none⟩
  | replica {r : Server × Option Peer} (h : s.replicaAdd (commandPart com) connected = some r) :
      Routed s ss com connected (magic (lit "replica"))
        ⟨r.1, ss, .client (magic (lit "replica")), none, none, r.2⟩
  | replicaaccept : Routed s ss com connected (magic (lit "replicaaccept"))
      ⟨s, { ss with autoSendYes := false }, .nothing, none, none, none⟩
  | ask {msg : Str} {send : Send} (hm : lit "hashval" <:+: msg)
      (h : MuseKv.ask s (forwarded ss (commandPart com)) msg = some send) :
      Routed s ss com connected msg ⟨s, ss, send, none, none, none⟩
  | reply {msg : Str} (hm : ¬ Marked msg) : Routed s ss com connected msg
      { server := s
        session := ss
        send := .client msg
        log := if commandType com = .write then
            some (commandPart com ++ backspace :: byte ' ' :: toStr (authority ss com)) else none
        autoSend := if ss.autoSendYes && commandType com = .write && s.replicaNum ≠ 0 then
            some (commandPart com) else none }

/-- **What `scan_and_send` does is one of its branches.** -/
theorem routed {s : Server} {ss : Session} {com msg : Str} {connected : Bool} {y : Scan}
    (h : route s ss com connected msg = some y) : Routed s ss com connected msg y := by
  by_cases hm : lit "hashval" <:+: msg
  · rw [route_ask hm] at h
    obtain ⟨send, hsend, rfl⟩ := Option.map_eq_some_iff.mp h
    exact .ask hm hsend
  by_cases hmagic : ∃ word ∈ controlWords, msg = magic word
  · obtain ⟨word, hword, rfl⟩ := hmagic
    simp only [controlWords, List.mem_cons, List.not_mem_nil, or_false] at hword
    rcases hword with rfl | rfl | rfl | rfl | rfl | rfl | rfl
    · rw [route_client_word] at h
      obtain ⟨a, ha, rfl⟩ := Option.map_eq_some_iff.mp h
      exact .client ha
    · rw [route_give] at h
      obtain ⟨info, hinfo, rfl⟩ := Option.map_eq_some_iff.mp h
      exact .give hinfo
    · rw [route_clust] at h
      obtain ⟨s', hs', rfl⟩ := Option.map_eq_some_iff.mp h
      exact .clust hs'
    · rw [route_myinfo] at h
      obtain ⟨s', hs', rfl⟩ := Option.map_eq_some_iff.mp h
      exact .myinfo hs'
    · rw [route_replicanumber] at h
      obtain ⟨s', hs', rfl⟩ := Option.map_eq_some_iff.mp h
      exact .replicanumber hs'
    · rw [route_replica] at h
      obtain ⟨r, hr, rfl⟩ := Option.map_eq_some_iff.mp h
      exact .replica hr
    · rw [route_replicaaccept] at h
      obtain rfl := Option.some.inj h
      exact .replicaaccept
  · rw [route_client (not_or.mpr ⟨hm, hmagic⟩)] at h
    obtain rfl := Option.some.inj h
    exact .reply (not_or.mpr ⟨hm, hmagic⟩)

/-- A control reply is neither recorded nor sent to a peer. -/
theorem route_control {s : Server} {ss : Session} {com word : Str} {connected : Bool} {y : Scan}
    (hword : word ∈ controlWords) (h : route s ss com connected (magic word) = some y) :
    y.log = none ∧ y.autoSend = none ∧ ∀ index c, y.send ≠ .peer index c := by
  have hrouted := routed h
  generalize hmsg : magic word = msg at hrouted
  cases hrouted with
  | ask hm => exact absurd hmsg.symm (ne_magic_of_hashval hm hword)
  | reply hm => exact absurd (Or.inr ⟨word, hword, hmsg.symm⟩) hm
  | _ => exact ⟨rfl, rfl, fun _ _ => nofun⟩

/-- What is sent to a peer is the command with the authority of its session. -/
theorem eq_forwarded_of_peer {s : Server} {ss : Session} {com m : Str} {t : Int} {connected : Bool}
    {x : Scan} {index : ℕ} (h : scanAndSend s ss com t connected = some x)
    (hsend : x.send = .peer index m) : m = forwarded ss (commandPart com) := by
  obtain ⟨⟨msg, w'⟩, -, h⟩ := Option.bind_eq_some_iff.mp h
  have hrouted := routed h
  dsimp only at hrouted
  cases hrouted with
  | ask _ hask =>
    obtain ⟨index', rfl⟩ := eq_peer_of_ask hask
    exact (Send.peer.inj hsend).2.symm
  | _ => exact absurd hsend nofun

/-- **What `scan_and_send` can do to the server**, behind the reply of `execute`: one of the four setup
messages that change it, or nothing. -/
theorem route_server {s : Server} {ss : Session} {com msg : Str} {connected : Bool} {y : Scan}
    (h : route s ss com connected msg = some y) :
    (msg = magic (lit "clust") ∧ s.clusterConnect (commandPart com) connected = some y.server) ∨
    (msg = magic (lit "myinfo") ∧ s.hashReset (commandPart com) = some y.server) ∨
    (msg = magic (lit "replicanumber") ∧ s.setReplicaNum (commandPart com) = some y.server) ∨
    (msg = magic (lit "replica") ∧
      s.replicaAdd (commandPart com) connected = some (y.server, y.accept)) ∨
    y.server = s := by
  cases routed h with
  | clust hs => exact Or.inl ⟨rfl, hs⟩
  | myinfo hs => exact Or.inr (Or.inl ⟨rfl, hs⟩)
  | replicanumber hs => exact Or.inr (Or.inr (Or.inl ⟨rfl, hs⟩))
  | replica hs => exact Or.inr (Or.inr (Or.inr (Or.inl ⟨rfl, hs⟩)))
  | _ => exact Or.inr (Or.inr (Or.inr (Or.inr rfl)))

/-- The request for a key that is refused. -/
theorem ask_hashval (s : Server) (com k : Str) :
    ask s com (lit "hashval " ++ toStr (Hash.hashFunc k)) =
      (s.search (Hash.hashFunc k)).bind fun index =>
        s.clusterVec[index]?.map fun _ => .peer index com := by
  have hsub : substr (lit "hashval " ++ toStr (Hash.hashFunc k)) 8
      = some (toStr (Hash.hashFunc k)) := by
    rw [substr, if_pos (by simp [lit])]
    rfl
  rw [ask, hsub, Option.bind_some, atoi_toStr_hashFunc]

/-! ### Control replies -/

namespace Server

/-- The words that `cluster_connect` reads: the bounds only after the connection. -/
def connectWords : Bool → ℕ
  | true => 5
  | false => 3

theorem clusterConnect_eq_some {s s' : Server} {com : Str} {connected : Bool}
    (h : s.clusterConnect com connected = some s') :
    ∃ ip port, (words com)[1]? = some ip ∧ (words com)[2]? = some port ∧
      ((connected = true ∧ ∃ start last, (words com)[3]? = some start ∧ (words com)[4]? = some last ∧
          s' = { s with
            clusterVec := s.clusterVec ++ [some (ip, atoi port)]
            clusterNum := s.clusterNum + 1
            slotStart := s.slotStart ++ [atoi start]
            slotEnd := s.slotEnd ++ [atoi last]
            clientNum := s.clientNum - 1 }) ∨
        (connected = false ∧ s' = { s with
          clusterVec := s.clusterVec ++ [none]
          clusterNum := s.clusterNum + 1 })) := by
  obtain ⟨ip, hip, h⟩ := Option.bind_eq_some_iff.mp h
  obtain ⟨port, hport, h⟩ := Option.bind_eq_some_iff.mp h
  refine ⟨ip, port, hip, hport, ?_⟩
  cases connected with
  | true =>
    rw [if_pos rfl] at h
    obtain ⟨start, hstart, h⟩ := Option.bind_eq_some_iff.mp h
    obtain ⟨last, hlast, h⟩ := Option.map_eq_some_iff.mp h
    exact Or.inl ⟨rfl, start, last, hstart, hlast, h.symm⟩
  | false =>
    rw [if_neg Bool.false_ne_true] at h
    exact Or.inr ⟨rfl, (Option.some.inj h).symm⟩

theorem hashReset_eq_some {s s' : Server} {com : Str} (h : s.hashReset com = some s') :
    ∃ start last, (words com)[3]? = some start ∧ (words com)[4]? = some last ∧
      s' = { s with w := { s.w with h := s.w.h.setBoundary (atoi start) (atoi last) } } := by
  obtain ⟨start, hstart, h⟩ := Option.bind_eq_some_iff.mp h
  obtain ⟨last, hlast, h⟩ := Option.map_eq_some_iff.mp h
  exact ⟨start, last, hstart, hlast, h.symm⟩

theorem setReplicaNum_eq_some {s s' : Server} {com : Str} (h : s.setReplicaNum com = some s') :
    ∃ arg, (words com)[1]? = some arg ∧ 1 ≤ atoi arg ∧
      s' = { s with
        replicaNum := atoi arg
        repnum := 0
        replicaCom := List.replicate (atoi arg - 1).toNat []
        replicaIp := List.replicate (atoi arg - 1).toNat []
        replicaPort := List.replicate (atoi arg - 1).toNat 0
        replicaSock := List.replicate (atoi arg - 1).toNat none } := by
  obtain ⟨arg, harg, h⟩ := Option.bind_eq_some_iff.mp h
  dsimp only at h
  split_ifs at h with hn
  exact ⟨arg, harg, by omega, (Option.some.inj h).symm⟩

theorem replicaAdd_eq_some {s s' : Server} {com : Str} {connected : Bool} {p : Option Peer}
    (h : s.replicaAdd com connected = some (s', p)) :
    ((s.repnum : Int) < s.replicaNum - 1 ∧
      ∃ ip port, (words com)[1]? = some ip ∧ (words com)[2]? = some port ∧
        p = (if connected then some (ip, atoi port) else none) ∧
        s' = { s with
          replicaCom := s.replicaCom.set s.repnum (trim com)
          replicaIp := s.replicaIp.set s.repnum ip
          replicaPort := s.replicaPort.set s.repnum (atoi port)
          replicaSock :=
            s.replicaSock.set s.repnum (if connected then some (ip, atoi port) else none)
          repnum := if connected then s.repnum + 1 else s.repnum }) ∨
    (¬ (s.repnum : Int) < s.replicaNum - 1 ∧ p = none ∧ s' = s) := by
  rw [replicaAdd] at h
  by_cases hroom : (s.repnum : Int) < s.replicaNum - 1
  · rw [if_pos hroom] at h
    obtain ⟨ip, hip, h⟩ := Option.bind_eq_some_iff.mp h
    obtain ⟨port, hport, h⟩ := Option.map_eq_some_iff.mp h
    obtain ⟨h, hp⟩ := Prod.mk.inj h
    exact Or.inl ⟨hroom, ip, port, hip, hport, hp.symm, h.symm⟩
  · rw [if_neg hroom] at h
    obtain ⟨h, hp⟩ := Prod.mk.inj (Option.some.inj h)
    exact Or.inr ⟨hroom, hp.symm, h.symm⟩

theorem clusterConnect_isSome {s : Server} {com : Str} {connected : Bool} :
    (s.clusterConnect com connected).isSome ↔ connectWords connected ≤ (words com).length := by
  rw [clusterConnect]
  rcases words com with _ | ⟨_, _ | ⟨_, _ | ⟨_, _ | ⟨_, _ | ⟨_, _⟩⟩⟩⟩⟩ <;> cases connected <;>
    simp [connectWords]

theorem hashReset_isSome {s : Server} {com : Str} :
    (s.hashReset com).isSome ↔ 5 ≤ (words com).length := by
  rw [hashReset]
  rcases words com with _ | ⟨_, _ | ⟨_, _ | ⟨_, _ | ⟨_, _ | ⟨_, _⟩⟩⟩⟩⟩ <;> simp

theorem setReplicaNum_isSome {s : Server} {com : Str} :
    (s.setReplicaNum com).isSome ↔ ∃ arg, (words com)[1]? = some arg ∧ 1 ≤ atoi arg := by
  rw [setReplicaNum]
  cases (words com)[1]? with
  | none => simp
  | some arg =>
    rw [Option.bind_some]
    dsimp only
    split_ifs with h
    · simp only [Option.isSome_none, Bool.false_eq_true, Option.some.injEq, exists_eq_left', false_iff]
      omega
    · simp only [Option.isSome_some, Option.some.injEq, exists_eq_left', true_iff]
      omega

theorem replicaAdd_isSome {s : Server} {com : Str} {connected : Bool} :
    (s.replicaAdd com connected).isSome ↔
      ((s.repnum : Int) < s.replicaNum - 1 → 3 ≤ (words com).length) := by
  rw [replicaAdd]
  by_cases h : (s.repnum : Int) < s.replicaNum - 1
  · rw [if_pos h]
    rcases words com with _ | ⟨_, _ | ⟨_, _ | ⟨_, _⟩⟩⟩ <;> simp [h]
  · rw [if_neg h]
    simp [h]

/-- Whether the answer to a control reply is that reply again: the setup message it stands for finds
its words in the command, and is answered with it. -/
def Echoes (s : Server) (cut : Str) (connected : Bool) (word : Str) : Prop :=
  if word = lit "give" then s.giveReplicaInfo cut = some (magic word)
  else if word = lit "clust" then connectWords connected ≤ (words cut).length
  else if word = lit "myinfo" then 5 ≤ (words cut).length
  else if word = lit "replicanumber" then ∃ arg, (words cut)[1]? = some arg ∧ 1 ≤ atoi arg
  else if word = lit "replica" then
    (s.repnum : Int) < s.replicaNum - 1 → 3 ≤ (words cut).length
  else False

end Server

/-- A setup message that is answered with a control reply. -/
theorem exists_send_map {α : Type} {o : Option α} {f : α → Scan} {msg : Str}
    (h : ∀ x, (f x).send = .client msg) :
    (∃ y, o.map f = some y ∧ y.send = .client msg) ↔ o.isSome := by
  cases o with
  | none => simp
  | some x => simp [h]

/-- **A control reply that comes from elsewhere** reaches the client just when its setup message
answers with it. -/
theorem route_magic {s : Server} {ss : Session} {com word : Str} {connected : Bool}
    (hword : word ∈ controlWords) :
    (∃ y, route s ss com connected (magic word) = some y ∧ y.send = .client (magic word)) ↔
      s.Echoes (commandPart com) connected word := by
  simp only [controlWords, List.mem_cons, List.not_mem_nil, or_false] at hword
  rcases hword with rfl | rfl | rfl | rfl | rfl | rfl | rfl
  · -- `client` is answered with a number
    rw [route_client_word, Server.Echoes, if_neg (by decide), if_neg (by decide),
      if_neg (by decide), if_neg (by decide), if_neg (by decide), iff_false]
    rintro ⟨y, hy, hsend⟩
    obtain ⟨a, -, rfl⟩ := Option.map_eq_some_iff.mp hy
    refine absurd (show backspace ∈ toStr s.replicaNum from ?_)
      (not_mem_toStr (by decide) (by decide) _)
    rw [Send.client.inj hsend]
    decide
  · rw [route_give, Server.Echoes, if_pos rfl]
    cases s.giveReplicaInfo (commandPart com) with
    | none => simp
    | some info => simp
  · rw [route_clust, exists_send_map fun _ => rfl, Server.clusterConnect_isSome, Server.Echoes,
      if_neg (by decide), if_pos rfl]
  · rw [route_myinfo, exists_send_map fun _ => rfl, Server.hashReset_isSome, Server.Echoes,
      if_neg (by decide), if_neg (by decide), if_pos rfl]
  · rw [route_replicanumber, exists_send_map fun _ => rfl, Server.setReplicaNum_isSome, Server.Echoes,
      if_neg (by decide), if_neg (by decide), if_neg (by decide), if_pos rfl]
  · rw [route_replica, exists_send_map fun _ => rfl, Server.replicaAdd_isSome, Server.Echoes,
      if_neg (by decide), if_neg (by decide), if_neg (by decide), if_neg (by decide), if_pos rfl]
  · -- `replicaaccept` is not answered
    rw [route_replicaaccept, Server.Echoes, if_neg (by decide), if_neg (by decide), if_neg (by decide),
      if_neg (by decide), if_neg (by decide)]
    simp

/-! ### The routing decision -/

/-- A text for which the reply that shows it is taken for something else: it is marked, and not one of
the control replies that are answered with themselves. -/
def Misleads (s : Server) (cut : Str) (connected : Bool) (x : Shown) : Prop :=
  x.Marked ∧ ¬ ∃ word ∈ controlWords, x = .text (magic word) ∧ s.Echoes cut connected word

/-- The message went to a peer. -/
def ToPeer (x : Option Scan) : Prop := ∃ y index com, x = some y ∧ y.send = .peer index com

/-- The client was sent a reply. -/
def ToClient (msg : Str) (x : Option Scan) : Prop := ∃ y, x = some y ∧ y.send = .client msg

/-- The decision that the words of a message ask for: a peer gets the message if and only if it names
a key outside the bounds of the node, and otherwise the client gets the reply of `execute`. -/
def RoutedByKey (s : Server) (ws : List Str) (msg : Str) (x : Option Scan) : Prop :=
  (ToPeer x ↔ refused s.w.h ws = true) ∧ (refused s.w.h ws = false → ToClient msg x)

/-- A refused message reaches a peer just when the search stops at one. -/
theorem toPeer_iff_of_refused {s : Server} {ss : Session} {com k : Str} {connected : Bool} :
    ToPeer (route s ss com connected (lit "hashval " ++ toStr (Hash.hashFunc k))) ↔
      s.CanAsk (Hash.hashFunc k) := by
  rw [route_ask (List.prefix_append_of_prefix (by decide)).isInfix, ask_hashval]
  constructor
  · rintro ⟨y, index, c, hy, -⟩
    obtain ⟨send, hsend, -⟩ := Option.map_eq_some_iff.mp hy
    obtain ⟨index, hindex, hsend⟩ := Option.bind_eq_some_iff.mp hsend
    obtain ⟨sock, hsock, -⟩ := Option.map_eq_some_iff.mp hsend
    exact ⟨index, (List.getElem?_eq_some_iff.mp hsock).1, Server.search_eq_some.mp hindex⟩
  · rintro ⟨index, hlt, hstops⟩
    rw [Server.search_eq_some.mpr hstops, Option.bind_some, List.getElem?_eq_getElem hlt]
    exact ⟨_, index, _, rfl, rfl⟩

/-- A reply of this node reaches the client, and no peer, just when it misleads nobody. -/
theorem toClient_iff {s : Server} {ss : Session} {com msg : Str} {connected : Bool}
    {o : Option Shown} (h : Reports o msg) :
    ToClient msg (route s ss com connected msg) ↔
      ∀ x, o = some x → ¬ Misleads s (commandPart com) connected x := by
  by_cases hm : Marked msg
  · obtain ⟨x, rfl, hx⟩ := h.marked_iff.mp hm
    simp only [Option.some.injEq, forall_eq', Misleads, not_and_not_right]
    rcases hm with hhash | ⟨word, hword, rfl⟩
    · -- the mark of a refusal sends the message away, or ends in a fault
      refine ⟨?_, fun hecho => ?_⟩
      · rintro ⟨y, hy, hsend⟩
        rw [route_ask hhash] at hy
        obtain ⟨send, hask, rfl⟩ := Option.map_eq_some_iff.mp hy
        obtain ⟨index, rfl⟩ := eq_peer_of_ask hask
        exact absurd hsend (by simp)
      · obtain ⟨word, hword, rfl, -⟩ := hecho hx
        cases h
        exact absurd rfl (ne_magic_of_hashval hhash hword)
    · cases h with
      | name _ hmagic => exact absurd rfl (hmagic word hword)
      | text =>
        rw [ToClient, route_magic hword]
        constructor
        · exact fun hecho _ => ⟨word, hword, rfl, hecho⟩
        · intro hecho
          obtain ⟨word', -, heq, hecho⟩ := hecho hx
          obtain rfl : word = word' := by simpa [magic] using heq
          exact hecho
  · rw [route_client hm]
    refine ⟨fun _ x hx hmis => ?_, fun _ => ⟨_, rfl, rfl⟩⟩
    exact hm (h.marked_iff.mpr ⟨x, hx, hmis.1⟩)

/-- A reply of this node that reaches the client reaches no peer. -/
theorem not_toPeer_of_toClient {msg : Str} {x : Option Scan} (h : ToClient msg x) : ¬ ToPeer x := by
  obtain ⟨y, rfl, hsend⟩ := h
  rintro ⟨y', index, com, hy', hsend'⟩
  obtain rfl := Option.some.inj hy'
  rw [hsend] at hsend'
  exact absurd hsend' (by simp)

/-- **A message is routed by its key if and only if** a node can be asked for a key that is refused,
and the reply to any other command shows no text that misleads. -/
theorem routedByKey_iff (s : Server) (ss : Session) (com : Str) (t : Int) (connected : Bool)
    {msg : Str} {w' : World}
    (hctl : ∀ word ∈ (words (commandPart com)).head?, word ∉ controlWords)
    (hexec : execute (commandPart com) (toU8 (authority ss com)) t s.w = some (msg, w')) :
    RoutedByKey s (words (commandPart com)) msg (scanAndSend s ss com t connected) ↔
      (∀ k, (words (commandPart com))[1]? = some k → notHere s.w.h k = true →
        s.CanAsk (Hash.hashFunc k)) ∧
      (refused s.w.h (words (commandPart com)) = false →
        ∀ x, shown (words (commandPart com)) (toU8 (authority ss com)) t s.w.h = some x →
          ¬ Misleads s (commandPart com) connected x) := by
  rw [scanAndSend, hexec, Option.bind_some, RoutedByKey]
  cases href : refused s.w.h (words (commandPart com)) with
  | true =>
    obtain ⟨k, hk, rfl, rfl⟩ := executeWords_refused hctl href hexec
    obtain ⟨k', hk', hnot⟩ := refused_iff.mp href
    obtain rfl := Option.some.inj (hk.symm.trans hk')
    simp only [iff_true, toPeer_iff_of_refused, hk, Option.some.injEq, forall_eq', hnot,
      Bool.true_eq_false, false_implies, and_true, forall_const]
  | false =>
    have hpart : ∀ k, (words (commandPart com))[1]? = some k → notHere s.w.h k = true →
        s.CanAsk (Hash.hashFunc k) := fun k hk hnot =>
      absurd (href.symm.trans (refused_iff.mpr ⟨k, hk, hnot⟩)) Bool.false_ne_true
    rw [iff_false_intro Bool.false_ne_true, iff_false, and_iff_right hpart]
    simp only [forall_const]
    have hclient := @toClient_iff { s with w := w' } ss com msg connected _
      (reports_shown hctl href hexec)
    constructor
    · exact fun h => hclient.mp h.2
    · exact fun h => ⟨not_toPeer_of_toClient (hclient.mpr h), hclient.mpr h⟩

/-- A server of one node with a text under the key `k`. -/
def holding (x : Str) : Server :=
  { w := { World.fresh 8000 with h := (Hash.new 8000).set (lit "k") (.string x) 0 0 } }

theorem routedByKey_holding : RoutedByKey (holding (lit "v")) (words (commandPart (lit "get k")))
    (lit "v") (scanAndSend (holding (lit "v")) {} (lit "get k") 0 true) := by
  have hexec : execute (commandPart (lit "get k")) (toU8 (authority {} (lit "get k"))) 0
      (holding (lit "v")).w = some (lit "v", (holding (lit "v")).w) := rfl
  have hshown : shown (words (commandPart (lit "get k"))) (toU8 (authority {} (lit "get k"))) 0
      (holding (lit "v")).w.h = some (.text (lit "v")) := rfl
  have hhere : notHere (holding (lit "v")).w.h (lit "k") = false := rfl
  have hk : (words (commandPart (lit "get k")))[1]? = some (lit "k") := by decide
  have hv : ¬ Marked (lit "v") := not_marked (by decide) (by decide)
  refine (routedByKey_iff _ _ _ _ _ (by decide) hexec).mpr ⟨?_, fun _ x hx => ?_⟩
  · intro k hk' hnot
    obtain rfl := Option.some.inj (hk.symm.trans hk')
    exact absurd (hhere.symm.trans hnot) Bool.false_ne_true
  · obtain rfl := Option.some.inj (hshown.symm.trans hx)
    exact fun hmis => hv hmis.1

/-- **A stored text is taken for a refusal.**  After `make k hashval`, the command `get k` on the node
of `k` ends in an exception of `substr`, and its client gets no reply. -/
theorem not_routedByKey_hashval :
    execute (lit "make k hashval") 0 0 (World.fresh 8000)
        = some (confirmMsg, (holding (lit "hashval")).w) ∧
      ¬ ∀ (s : Server) (ss : Session) (com : Str) (t : Int) (connected : Bool) (msg : Str)
        (w' : World), (∀ word ∈ (words (commandPart com)).head?, word ∉ controlWords) →
        execute (commandPart com) (toU8 (authority ss com)) t s.w = some (msg, w') →
        RoutedByKey s (words (commandPart com)) msg (scanAndSend s ss com t connected) := by
  refine ⟨rfl, fun h => ?_⟩
  have hexec : execute (commandPart (lit "get k")) (toU8 (authority {} (lit "get k"))) 0
      (holding (lit "hashval")).w = some (lit "hashval", (holding (lit "hashval")).w) := rfl
  have hscan : scanAndSend (holding (lit "hashval")) {} (lit "get k") 0 true = none := rfl
  obtain ⟨y, hy, -⟩ := (h (holding (lit "hashval")) {} (lit "get k") 0 true _ _ (by decide)
    hexec).2 rfl
  rw [hscan] at hy
  exact absurd hy (by simp)

end MuseKv
