import MuseKv.Client.Basic
import MuseKv.Kvstore.Equiv.Loops
import MuseKv.Replica.Equiv.Circulation
import MuseKv.Server.Equiv.Framing

/-!
# A client finds its group

A node that `replica.cpp` has built lists the other replicas in the order of the configuration (`Listing`),
and answers a client with them (`give_eq`).  So a client of any node learns the whole group, each replica
once, and its session has the authority it asked for (**`Client.finds`**).
-/

namespace MuseKv

open General Kvstore Command Distribute

/-! ### Texts that are sent whole -/

theorem length_toStr_le {x : Int} (h₁ : -2 ^ 31 ≤ x) (h₂ : x < 2 ^ 31) : (toStr x).length ≤ 11 := by
  cases x with
  | ofNat n =>
    have hlen := Nat.toDigits_length 10 n 10 (by norm_num) (by
      have : (n : Int) < 2 ^ 31 := h₂
      omega)
    rw [toStr, List.length_map]
    omega
  | negSucc n =>
    have hlen := Nat.toDigits_length 10 (n + 1) 10 (by norm_num) (by
      rw [Int.negSucc_eq] at h₁
      omega)
    rw [toStr, List.length_cons, List.length_map]
    omega

theorem words_trim (s : Str) : words (trim s) = words s := by
  rw [words, Loops.trim_trim]
  rfl

/-- The text that a node keeps of a line, as it gives it to a client. -/
def kept (r : Replica) : Str := trim (commandPart r.com)

/-- A line that a node receives, and gives, in one piece. -/
def Whole (r : Replica) : Prop := r.com.length < 1024 ∧ (0 : UInt8) ∉ r.com

theorem Whole.kept_text {r : Replica} (h : Whole r) : (kept r).length < 1024 ∧ (0 : UInt8) ∉ kept r := by
  have hsub : (kept r).Sublist r.com :=
    (trim_sublist _).trans (List.takeWhile_prefix _).sublist
  exact ⟨hsub.length_le.trans_lt h.1, fun h0 => h.2 (hsub.subset h0)⟩

/-! ### What a node lists -/

namespace Distribute

/-- A node that has added some replicas and has room for as many more: the texts it gives. -/
structure Listing (s : Server) (done : List Str) (room : ℕ) : Prop where
  repnum : s.repnum = done.length
  replicaCom : s.replicaCom = done ++ List.replicate room []
  replicaNum : s.replicaNum = done.length + room + 1

/-- **One line** is listed. -/
theorem Listing.step {s : Server} {ss : Session} {done : List Str} {room : ℕ} {r : Replica} {t : Int}
    {x : Scan} (h : Listing s done (room + 1)) (hr : r.Names)
    (hx : scanAndSend s ss r.com t true = some x) : Listing x.server (done ++ [kept r]) room := by
  obtain ⟨port, rest, hws, -⟩ := hr
  rw [scanAndSend_replica hws (by rw [h.repnum, h.replicaNum]; omega), Option.some.injEq] at hx
  subst hx
  refine ⟨?_, ?_, ?_⟩
  · rw [List.length_append, ← h.repnum]
    rfl
  · change s.replicaCom.set s.repnum (kept r) = _
    rw [h.replicaCom, h.repnum, List.set_append_right _ _ (le_refl _), Nat.sub_self,
      List.replicate_succ, List.set_cons_zero, List.append_assoc, List.singleton_append]
  · rw [List.length_append, List.length_singleton]
    refine h.replicaNum.trans ?_
    push_cast
    ring

/-- **All lines** are listed in their order. -/
theorem Listing.run {rs : List Replica} (hrs : ∀ r ∈ rs, r.Names) :
    ∀ {s s' : Server} {ss ss' : Session} {done : List Str} {reqs : List (Str × Int)}
      {greeted : List Peer}, Listing s done rs.length → reqs.map Prod.fst = rs.map Replica.com →
      s.takeAll ss reqs = some (s', ss', greeted) → Listing s' (done ++ rs.map kept) 0 := by
  induction rs with
  | nil =>
    intro s s' ss ss' done reqs greeted h hreqs htake
    obtain rfl := List.map_eq_nil_iff.mp hreqs
    obtain ⟨rfl, -⟩ := Prod.mk.inj (Option.some.inj htake)
    rwa [List.map_nil, List.append_nil]
  | cons r rs ih =>
    intro s s' ss ss' done reqs greeted h hreqs htake
    match reqs, hreqs with
    | (com, t) :: reqs, hreqs =>
      obtain ⟨hcom, hcoms⟩ := List.cons.inj hreqs
      obtain rfl : com = r.com := hcom
      obtain ⟨x, hx, htake⟩ := Option.bind_eq_some_iff.mp htake
      obtain ⟨y, hy, heq⟩ := Option.map_eq_some_iff.mp htake
      obtain ⟨rfl, -⟩ := Prod.mk.inj heq
      have hrun := ih (fun r hr => hrs r (List.mem_cons_of_mem _ hr))
        (h.step (hrs r (List.mem_cons_self ..)) hx) hcoms hy
      rwa [List.append_assoc] at hrun

/-- **The messages of a row** leave a node with the texts of the other replicas. -/
theorem listing_coms {row : List Replica} (hrow : ∀ r ∈ row, r.Names) {line arg : Str}
    {rest : List Str} (hline : words (commandPart line) = lit "replicanumber" :: arg :: rest)
    (hatoi : atoi arg = row.length) {j : ℕ} (hj : j < row.length) {s s' : Server} {ss ss' : Session}
    {reqs : List (Str × Int)} {greeted : List Peer}
    (hreqs : reqs.map Prod.fst = line :: (row.eraseIdx j).map Replica.com)
    (htake : s.takeAll ss reqs = some (s', ss', greeted)) :
    Listing s' ((row.eraseIdx j).map kept) 0 := by
  match reqs, hreqs with
  | (com, t) :: reqs, hreqs =>
    obtain ⟨hcom, hcoms⟩ := List.cons.inj hreqs
    obtain rfl : com = line := hcom
    obtain ⟨x, hx, htake⟩ := Option.bind_eq_some_iff.mp htake
    obtain ⟨y, hy, heq⟩ := Option.map_eq_some_iff.mp htake
    obtain ⟨rfl, -⟩ := Prod.mk.inj heq
    have hlen : (row.eraseIdx j).length = row.length - 1 := List.length_eraseIdx_of_lt hj
    rw [scanAndSend_replicanumber hline (by rw [hatoi]; omega), hatoi, Option.some.injEq] at hx
    subst hx
    -- the cells are empty at first
    refine Listing.run (fun r hr => hrow r (List.mem_of_mem_eraseIdx hr))
      (⟨rfl, ?_, ?_⟩ : Listing _ [] _) hcoms hy
    · have hroom : (((row.length : ℕ) : Int) - 1).toNat = row.length - 1 := by omega
      change List.replicate (((row.length : ℕ) : Int) - 1).toNat [] = _
      rw [List.nil_append, hlen, hroom]
    · change ((row.length : ℕ) : Int) = _
      rw [hlen, List.length_nil]
      omega

end Distribute

/-! ### The messages of a client -/

namespace Client

variable {memory : Str} {s : Server} {ss : Session} {t : Int}

/-- An exchange of texts that fit the buffers. -/
theorem exchange_eq {com msg : Str} {x : Scan} (hcom : com.length < 1024) (hcom0 : (0 : UInt8) ∉ com)
    (hmsg : msg.length < 1024) (hmsg0 : (0 : UInt8) ∉ msg) (hne : msg ≠ [])
    (hx : scanAndSend s ss com t true = some x) (hsend : x.send = .client msg) :
    exchange memory s ss com t = some (msg, x.session) := by
  rw [exchange, received_short hcom0 hcom, hx, Option.bind_some, hsend]
  dsimp only
  rw [if_neg hne, List.take_of_length_le hmsg.le, received_short hmsg0 hmsg]

/-- A word and a number, as a program sends them. -/
theorem message_spec (word : Str) {x : Int} (hword : word.length ≤ 6 ∧ words word = [word])
    (htext : backspace ∉ word ∧ (0 : UInt8) ∉ word) (h₁ : -2 ^ 31 ≤ x) (h₂ : x < 2 ^ 31) :
    (word ++ byte ' ' :: toStr x).length < 1024 ∧ (0 : UInt8) ∉ word ++ byte ' ' :: toStr x ∧
      commandPart (word ++ byte ' ' :: toStr x) = word ++ byte ' ' :: toStr x ∧
      words (word ++ byte ' ' :: toStr x) = [word, toStr x] := by
  have hlen := length_toStr_le h₁ h₂
  have hnot {c : UInt8} (hd : isDigit c = false) (hm : c ≠ byte '-') (hb : c ≠ byte ' ')
      (hc : c ∉ word) : c ∉ word ++ byte ' ' :: toStr x := by
    rw [List.mem_append, List.mem_cons]
    rintro (h | h | h)
    · exact hc h
    · exact hb h
    · exact not_mem_toStr hd hm x h
  refine ⟨?_, hnot (by decide) (by decide) (by decide) htext.2,
    commandPart_of_not_mem (hnot (by decide) (by decide) (by decide) htext.1), ?_⟩
  · rw [List.length_append, List.length_cons]
    omega
  · rw [words_append_blank, hword.2, words_toStr]
    rfl

/-- The greeting sets the authority of the session, and tells the number of replicas. -/
theorem greet_eq {auth : Int} (h₁ : -2 ^ 31 ≤ auth) (h₂ : auth < 2 ^ 31)
    (hnum₁ : -2 ^ 31 ≤ s.replicaNum) (hnum₂ : s.replicaNum < 2 ^ 31) :
    greet auth memory s t = some (s.replicaNum, { auth := auth }) := by
  obtain ⟨hlen, h0, hcut, hws⟩ := message_spec (lit "client") (by decide) (by decide) h₁ h₂
  have hscan : scanAndSend s {} (lit "client" ++ byte ' ' :: toStr auth) t true =
      some ⟨s, { auth := auth }, .client (toStr s.replicaNum), none, none, none⟩ := by
    rw [scanAndSend_control (by rw [hcut]; exact hws) (by decide), route_client_word, hcut]
    have hsub : substr (lit "client" ++ byte ' ' :: toStr auth) 7 = some (toStr auth) := by
      rw [substr, if_pos (by simp [lit])]
      rfl
    rw [hsub, Option.map_some, atoi_toStr_self h₁ h₂]
  have hexchange : exchange memory s {} _ t = some (toStr s.replicaNum, _) := exchange_eq hlen h0
    ((length_toStr_le hnum₁ hnum₂).trans_lt (by norm_num))
    (not_mem_toStr (by decide) (by decide) _) (toStr_ne_nil _) hscan rfl
  rw [greet]
  change (exchange memory s {} (lit "client" ++ byte ' ' :: toStr auth) t).bind _ = _
  rw [hexchange, Option.bind_some, words_toStr]
  dsimp only [List.getElem?_cons_zero]
  rw [Option.map_some, atoi_toStr_self hnum₁ hnum₂]

/-- A node gives the text at an index. -/
theorem exchange_give {i : ℕ} {info : Str} (hi : i < 2 ^ 31) (hinfo : s.replicaCom[i]? = some info)
    (hlen : info.length < 1024) (h0 : (0 : UInt8) ∉ info) (hne : info ≠ []) :
    exchange memory s ss (lit "give " ++ toStr i) t = some (info, ss) := by
  have h₁ : -2 ^ 31 ≤ (i : Int) := by omega
  have h₂ : (i : Int) < 2 ^ 31 := by exact_mod_cast hi
  obtain ⟨hcom, hcom0, hcut, hws⟩ := message_spec (lit "give") (by decide) (by decide) h₁ h₂
  have hscan : scanAndSend s ss (lit "give" ++ byte ' ' :: toStr i) t true =
      some ⟨s, ss, .client info, none, none, none⟩ := by
    rw [scanAndSend_control (by rw [hcut]; exact hws) (by decide), route_give, hcut,
      Server.giveReplicaInfo, hws, List.getElem?_cons_succ, List.getElem?_cons_zero, Option.bind_some,
      atoi_toStr_self h₁ h₂, if_pos (Int.natCast_nonneg i), Int.toNat_natCast, hinfo, Option.map_some]
  exact exchange_eq hcom hcom0 hlen h0 hne hscan rfl

/-- **The loop** learns what the node lists, from an index on. -/
theorem give_eq {rs : List Replica} {node : ℕ → Server} {clock : ℕ → Int} {i : ℕ}
    (hrs : ∀ r ∈ rs, r.Names ∧ Whole r) (hsmall : i + rs.length < 2 ^ 31)
    (hnode : ∀ j, ∀ m r, rs[m]? = some r → (node j).replicaCom[i + m]? = some (kept r)) :
    give memory node clock rs.length i ss = some (rs.map Replica.peer, ss) := by
  induction rs generalizing i with
  | nil => rfl
  | cons r rs ih =>
    obtain ⟨⟨port, rest, hws, hport⟩, hwhole⟩ := hrs r (List.mem_cons_self ..)
    obtain ⟨hlen, h0⟩ := hwhole.kept_text
    have hwords : words (kept r) = lit "replica" :: r.ip :: port :: rest := by rw [kept, words_trim, hws]
    have hne : kept r ≠ [] := by
      intro hnil
      rw [hnil, words_nil] at hwords
      exact absurd hwords (by simp)
    rw [List.length_cons] at hsmall
    have hinfo : (node (i + 1)).replicaCom[i]? = some (kept r) := hnode (i + 1) 0 r rfl
    rw [List.length_cons, give, exchange_give (by omega) hinfo hlen h0 hne, Option.bind_some, hwords,
      ih (fun r hr => hrs r (List.mem_cons_of_mem _ hr)) (by omega) fun j m r' hr' => by
        rw [Nat.add_right_comm, Nat.add_assoc]
        exact hnode j (m + 1) r' hr']
    change some ((r.ip, atoi port) :: rs.map Replica.peer, ss) = _
    rw [hport]
    rfl

open Replication in
/-- **A client finds its group.**  Whatever the tables of a node of a group that `replica.cpp` has built
hold while a client asks it, the client learns the number of the replicas and the addresses of the other
ones in the order of the configuration, so that with the address it was given it has each replica once;
its session has the authority it asked for.  `recover.cpp` learns the other addresses alone, and its
session has the authority `0`. -/
theorem finds {lines : List Str} {line : Str} {row : List Replica} {g : Group row.length}
    (hread : Replication.readConfig lines = some (line, row)) (hreach : ∀ r ∈ row, Reachable r.peer)
    (hwhole : ∀ r ∈ row, Whole r) (hg : Joined line row g) (p : Fin row.length) {node : ℕ → Server}
    (hnode : ∀ i, ∃ w n, node i = { g.servers p with w := w, clientNum := n }) {auth : Int}
    (h₁ : -2 ^ 31 ≤ auth) (h₂ : auth < 2 ^ 31) (own : Peer) (memory : Str) (clock : ℕ → Int) :
    getReplicaInfo auth own memory node clock =
        some (⟨row.length, own :: (row.eraseIdx p).map Replica.peer⟩, { auth := auth }) ∧
      (own = row[p].peer →
        (own :: (row.eraseIdx p).map Replica.peer).Perm (row.map Replica.peer)) ∧
      Recover.getReplicaInfo memory node clock =
        some (⟨row.length, (row.eraseIdx p).map Replica.peer⟩, {}) := by
  obtain ⟨hnames, hline⟩ := readConfig_spec hread hreach
  obtain ⟨arg, rest, hws, hatoi⟩ := hline (List.ne_nil_of_length_pos p.pos)
  obtain ⟨greeted, hservers, -⟩ := hg.servers
  obtain ⟨s, ss, ss', reqs, -, hreqs, htake⟩ := hservers p
  have hlist := listing_coms hnames hws hatoi p.isLt (List.append_cancel_right hreqs) htake
  have hlen : (row.eraseIdx p).length = row.length - 1 := List.length_eraseIdx_of_lt p.isLt
  have hpos := p.pos
  have hsmall : (row.length : Int) < 2 ^ 31 := by
    rw [← hatoi]
    exact (wrap32_bounds _).2
  have hnum : ∀ i, (node i).replicaNum = row.length := by
    intro i
    obtain ⟨w, n, hi⟩ := hnode i
    rw [hi]
    refine hlist.replicaNum.trans ?_
    rw [List.length_map, hlen]
    omega
  have hcom : ∀ j m r, (row.eraseIdx p)[m]? = some r →
      (node j).replicaCom[0 + m]? = some (kept r) := by
    intro j m r hr
    obtain ⟨w, n, hj⟩ := hnode j
    rw [hj, Nat.zero_add]
    change (g.servers p).replicaCom[m]? = _
    rw [hlist.replicaCom, List.replicate_zero, List.append_nil, List.getElem?_map, hr, Option.map_some]
  have hgive (ss : Session) : give memory _ clock (row.eraseIdx p).length 0 ss =
      some ((row.eraseIdx p).map Replica.peer, ss) := give_eq
    (fun r hr => ⟨hnames r (List.mem_of_mem_eraseIdx hr), hwhole r (List.mem_of_mem_eraseIdx hr)⟩)
    (by omega) hcom
  have hcount : ((row.length : Int) - 1).toNat = (row.eraseIdx p).length := by omega
  have hgreet {auth : Int} (h₁ : -2 ^ 31 ≤ auth) (h₂ : auth < 2 ^ 31) :
      greet auth memory (node 0) (clock 0) = some ((row.length : Int), { auth := auth }) := by
    rw [greet_eq h₁ h₂ (by rw [hnum]; omega) (by rw [hnum]; exact hsmall), hnum]
  refine ⟨?_, fun hown => ?_, ?_⟩
  · rw [getReplicaInfo, hgreet h₁ h₂, Option.bind_some]
    dsimp only
    rw [if_neg (by omega), if_neg (by omega), hcount, hgive, Option.map_some]
  · rw [hown, ← List.map_cons]
    exact (List.getElem_cons_eraseIdx_perm p.isLt).map _
  · rw [Recover.getReplicaInfo, hgreet (by norm_num) (by norm_num), Option.bind_some]
    dsimp only
    rw [if_neg (by omega), hcount, hgive, Option.map_some]

open MuseKv.Group Traced in
/-- A client of authority `3` at the first of two replicas. -/
theorem finds_pair : getReplicaInfo 3 (lit "10.0.0.1", 5001) [] (fun _ => pairJoined.servers first)
    (fun _ => 0) = some (⟨2, [(lit "10.0.0.1", 5001), (lit "10.0.0.2", 5002)]⟩, { auth := 3 }) := by
  have hread : Replication.readConfig pairLines = some (lit "replicanumber 2", pairRow) := rfl
  have hreach : ∀ r ∈ pairRow, Replication.Reachable r.peer := by
    simp only [pairRow, List.forall_mem_cons, List.not_mem_nil, IsEmpty.forall_iff, implies_true,
      and_true]
    exact ⟨⟨by decide, by decide⟩, by decide, by decide⟩
  have hwhole : ∀ r ∈ pairRow, Whole r := by
    simp only [pairRow, List.forall_mem_cons, List.not_mem_nil, IsEmpty.forall_iff, implies_true,
      and_true]
    exact ⟨⟨by decide, by decide⟩, by decide, by decide⟩
  exact (finds hread hreach hwhole joined_pair first (fun _ => ⟨_, _, rfl⟩) (by norm_num) (by norm_num)
    _ _ _).1

/-- A server without replicas is used alone. -/
theorem getReplicaInfo_alone {node : ℕ → Server} {clock : ℕ → Int} {auth : Int}
    (h₁ : -2 ^ 31 ≤ auth) (h₂ : auth < 2 ^ 31) (hnum : (node 0).replicaNum = 0) (own : Peer) :
    getReplicaInfo auth own memory node clock = some (⟨0, []⟩, { auth := auth }) := by
  rw [getReplicaInfo, greet_eq h₁ h₂ (by rw [hnum]; norm_num) (by rw [hnum]; norm_num), Option.bind_some,
    hnum]
  rfl

end Client

end MuseKv
