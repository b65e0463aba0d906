import MuseKv.Cluster.Distribute
import MuseKv.General.Shares
import MuseKv.Server.Equiv.Setup

/-!
# The nodes of a cluster cover the hashes

A node that has taken the messages of its connection owns one share of the slots and has recorded the
shares of the others, in the order of the configuration (`Built.spec`).  The shares partition the
hashes, so every key has one owner, and the search of every other node stops at it (`Built.search`).
-/

namespace MuseKv

open General Kvstore Command

namespace Distribute

/-- A line of the documented form: behind the first eight characters stand a host and a port, those
that `readReplicas` found. -/
def Replica.WellFormed (r : Replica) : Prop :=
  backspace ∉ r.com ∧ ∃ port, words (r.com.drop 8) = [r.ip, port] ∧ atoi port = r.port

variable {cfg : Config} {i j k : ℕ}

/-! ### The bounds that are sent -/

theorem slotStart_eq (cfg : Config) (k : ℕ) :
    slotStart cfg k = (shareStart totalSlotNum cfg.length k : ℕ) := by
  rw [slotStart, shareStart, Nat.cast_mul]
  rfl

theorem slotEnd_eq (cfg : Config) (k : ℕ) :
    slotEnd cfg k = (shareStop totalSlotNum cfg.length k : ℕ) - 1 := by
  rw [slotEnd, shareStop, ite_not]
  split_ifs
  · rfl
  · rw [Nat.cast_mul, Nat.cast_succ]
    rfl

/-- The bounds fit an `int`, so the other side reads what was printed. -/
theorem atoi_slots (hk : k < cfg.length) :
    atoi (toStr (slotStart cfg k)) = slotStart cfg k ∧
      atoi (toStr (slotEnd cfg k)) = slotEnd cfg k := by
  have h₁ := shareStart_le (t := totalSlotNum) hk
  have h₂ := shareStop_le (t := totalSlotNum) hk
  have hatoi : ∀ x : Int, -1 ≤ x → x ≤ totalSlotNum → atoi (toStr x) = x := by
    intro x hlo hhi
    exact atoi_toStr_self (by omega) (hhi.trans_lt (by norm_num))
  rw [slotStart_eq, slotEnd_eq]
  exact ⟨hatoi _ (by omega) (by exact_mod_cast h₁), hatoi _ (by omega) (by omega)⟩

/-- **A hash is within the bounds of a node just when it is in its share.** -/
theorem within_iff {x : ℕ} :
    Server.Within x (slotStart cfg k, slotEnd cfg k) ↔ InShare totalSlotNum cfg.length k x := by
  rw [Server.Within, InShare, slotStart_eq, slotEnd_eq]
  omega

/-! ### The messages -/

/-- A message, with the words that the other side finds in it. -/
theorem words_clustCom {msg : Str} {row : List Replica} (hrow : cfg[j]? = some row)
    (hi : i < row.length) (hwf : ∀ row ∈ cfg, ∀ r ∈ row, r.WellFormed)
    (h : clustCom cfg i j k = some msg) :
    ∃ r port, target cfg i k = some r ∧ atoi port = r.port ∧ backspace ∉ msg ∧
      words msg = [if k = j then lit "myinfo" else lit "clust", r.ip, port,
        toStr (slotStart cfg k), toStr (slotEnd cfg k)] := by
  rw [clustCom, hrow, Option.bind_some, if_neg (by omega), Nat.mod_eq_of_lt hi] at h
  obtain ⟨row', hrow', h⟩ := Option.bind_eq_some_iff.mp h
  obtain ⟨r, hr, h⟩ := Option.bind_eq_some_iff.mp h
  obtain ⟨retrieve, hretrieve, rfl⟩ := Option.map_eq_some_iff.mp h
  obtain ⟨hb, port, hwords, hport⟩ := hwf row' (List.mem_of_getElem? hrow') r
    (List.mem_of_getElem? hr)
  obtain rfl : retrieve = r.com.drop 8 := by
    rw [substr] at hretrieve
    split_ifs at hretrieve
    exact (Option.some.inj hretrieve).symm
  have hb' : backspace ∉ r.com.drop 8 := fun hmem => hb (List.mem_of_mem_drop hmem)
  -- the suffix of a command begins with a backspace, and the message has none
  have hnum : ∀ x : Int, backspace ∉ toStr x := not_mem_toStr (by decide) (by decide)
  refine ⟨r, port, by rw [target, hrow', Option.bind_some, hr], hport, ?_, ?_⟩
  · have hhead : backspace ∉ (if k = j then lit "myinfo " else lit "clust ") := by
      split_ifs <;> decide
    simp only [List.mem_append, not_or]
    exact ⟨⟨⟨⟨⟨hhead, hb'⟩, by decide⟩, hnum _⟩, by decide⟩, hnum _⟩
  · have hform : ∀ head : Str, head ++ lit " " ++ r.com.drop 8 ++ lit " " ++ toStr (slotStart cfg k)
          ++ lit " " ++ toStr (slotEnd cfg k)
        = head ++ byte ' ' :: (r.com.drop 8 ++ byte ' ' :: (toStr (slotStart cfg k) ++
            byte ' ' :: toStr (slotEnd cfg k))) := by
      intro head
      simp [lit]
    have hcut : (if k = j then lit "myinfo " else lit "clust ")
        = (if k = j then lit "myinfo" else lit "clust") ++ lit " " := by
      split_ifs <;> rfl
    have hhead : words (if k = j then lit "myinfo" else lit "clust")
        = [if k = j then lit "myinfo" else lit "clust"] := by
      split_ifs <;> decide
    rw [hcut, hform, words_append_blank, words_append_blank, words_append_blank, words_toStr,
      words_toStr, hwords, hhead]
    rfl

/-! ### What a node records -/

/-- A node of the `i`-th connections that has recorded the clusters of a list. -/
structure Knows (cfg : Config) (i : ℕ) (s : Server) (ks : List ℕ) : Prop where
  clusterVec : s.clusterVec = ks.map fun k => (target cfg i k).map Replica.peer
  slotStart : s.slotStart = ks.map (slotStart cfg)
  slotEnd : s.slotEnd = ks.map (slotEnd cfg)
  clusterNum : s.clusterNum = ks.length

/-- The node `j` of the `i`-th connections, after the messages about the clusters of a list. -/
structure Informed (cfg : Config) (i j : ℕ) (s : Server) (ks : List ℕ) : Prop where
  knows : Knows cfg i s (ks.filter fun k => k ≠ j)
  bounds : j ∈ ks → s.w.h.startNum = Distribute.slotStart cfg j ∧
    s.w.h.endNum = Distribute.slotEnd cfg j

/-- **One message** records its cluster, or sets the bounds of the node. -/
theorem Informed.step {s : Server} {ss : Session} {ks : List ℕ} {msg : Str} {t : Int}
    {row : List Replica} {x : Scan} (h : Informed cfg i j s ks) (hrow : cfg[j]? = some row)
    (hi : i < row.length) (hwf : ∀ row ∈ cfg, ∀ r ∈ row, r.WellFormed) (hk : k < cfg.length)
    (hmsg : clustCom cfg i j k = some msg) (hx : scanAndSend s ss msg t true = some x) :
    Informed cfg i j x.server (ks ++ [k]) := by
  obtain ⟨r, port, htarget, hport, hb, hwords⟩ := words_clustCom hrow hi hwf hmsg
  obtain ⟨hstart, hend⟩ := atoi_slots hk
  by_cases hkj : k = j
  · subst hkj
    rw [if_pos rfl] at hwords
    rw [scanAndSend_myinfo hb hwords, hstart, hend, Option.some.injEq] at hx
    subst hx
    -- `myinfo` sets the bounds, and leaves the table of the clusters
    have hfilter : (ks ++ [k]).filter (fun l => l ≠ k) = ks.filter fun l => l ≠ k := by simp
    exact ⟨hfilter ▸ ⟨h.knows.1, h.knows.2, h.knows.3, h.knows.4⟩, fun _ => ⟨rfl, rfl⟩⟩
  · rw [if_neg hkj] at hwords
    rw [scanAndSend_clust hb hwords, hstart, hend, Option.some.injEq] at hx
    subst hx
    -- `clust` enters the cluster behind the others
    have hfilter : (ks ++ [k]).filter (fun l => l ≠ j) = (ks.filter fun l => l ≠ j) ++ [k] := by
      simp [hkj]
    refine ⟨hfilter ▸ ⟨?_, ?_, ?_, ?_⟩, fun hj => h.bounds ?_⟩
    · rw [List.map_append, ← h.knows.clusterVec, List.map_singleton, htarget, hport]
      rfl
    · rw [List.map_append, ← h.knows.slotStart]
      rfl
    · rw [List.map_append, ← h.knows.slotEnd]
      rfl
    · rw [List.length_append, ← h.knows.clusterNum]
      rfl
    · rcases List.mem_append.mp hj with hj | hj
      · exact hj
      · exact absurd (List.mem_singleton.mp hj).symm hkj

/-- **All messages** of a connection. -/
theorem Informed.run {row : List Replica} (hrow : cfg[j]? = some row) (hi : i < row.length)
    (hwf : ∀ row ∈ cfg, ∀ r ∈ row, r.WellFormed) {todo : List ℕ} :
    ∀ {s s' : Server} {ss ss' : Session} {ks : List ℕ} {msgs : List Str} {reqs : List (Str × Int)}
      {peers : List Peer}, Informed cfg i j s ks → (∀ k ∈ todo, k < cfg.length) →
      todo.mapM (clustCom cfg i j) = some msgs → reqs.map Prod.fst = msgs →
      s.takeAll ss reqs = some (s', ss', peers) → Informed cfg i j s' (ks ++ todo) := by
  induction todo with
  | nil =>
    intro s s' ss ss' ks msgs reqs peers h _ hmsgs hreqs htake
    obtain rfl : msgs = [] := by simpa using hmsgs.symm
    obtain rfl := List.map_eq_nil_iff.mp hreqs
    obtain ⟨rfl, -⟩ := Prod.mk.inj (Option.some.inj htake)
    rwa [List.append_nil]
  | cons k todo ih =>
    intro s s' ss ss' ks msgs reqs peers h hlt hmsgs hreqs htake
    rw [List.mapM_cons] at hmsgs
    obtain ⟨msg, hmsg, hmsgs⟩ := Option.bind_eq_some_iff.mp hmsgs
    obtain ⟨rest, hrest, hmsgs⟩ := Option.bind_eq_some_iff.mp hmsgs
    obtain rfl := Option.some.inj hmsgs
    match reqs, hreqs with
    | (com, t) :: reqs, hreqs =>
      obtain ⟨hcom, hcoms⟩ := List.cons.inj hreqs
      obtain rfl : com = msg := hcom
      obtain ⟨x, hx, htake⟩ := Option.bind_eq_some_iff.mp htake
      obtain ⟨r, hr, heq⟩ := Option.map_eq_some_iff.mp htake
      obtain ⟨rfl, -⟩ := Prod.mk.inj heq
      have hstep := h.step hrow hi hwf (hlt k (List.mem_cons_self ..)) hmsg hx
      have hrun := ih hstep (fun l hl => hlt l (List.mem_cons_of_mem _ hl)) hrest hcoms hr
      rwa [List.append_assoc] at hrun

/-! ### A cluster that is built -/

/-- A node that has taken the messages of its `i`-th connection, before any other setup message. -/
def Built (cfg : Config) (i j : ℕ) (s : Server) : Prop :=
  ∃ (s₀ : Server) (ss : Session) (msgs : List Str) (reqs : List (Str × Int))
    (r : Session × List Peer),
    (s₀.clusterVec = [] ∧ s₀.slotStart = [] ∧ s₀.slotEnd = [] ∧ s₀.clusterNum = 0) ∧
      clustComs cfg i j = some msgs ∧ reqs.map Prod.fst = msgs ∧ s₀.takeAll ss reqs = some (s, r)

/-- A node of a cluster that is built, at a later time: what the setup left is as it was. -/
def Settled (cfg : Config) (i j : ℕ) (s : Server) : Prop :=
  ∃ s', Built cfg i j s' ∧ s.clusterVec = s'.clusterVec ∧ s.slotStart = s'.slotStart ∧
    s.slotEnd = s'.slotEnd ∧ s.clusterNum = s'.clusterNum ∧
    s.w.h.startNum = s'.w.h.startNum ∧ s.w.h.endNum = s'.w.h.endNum

/-- **A built node** has recorded all other clusters in their order and owns its own share. -/
theorem Built.spec {s : Server} (hwf : ∀ row ∈ cfg, ∀ r ∈ row, r.WellFormed)
    (h : Built cfg i j s) : Informed cfg i j s (List.range cfg.length) := by
  obtain ⟨s₀, ss, msgs, reqs, r, ⟨hvec, hstart, hend, hnum⟩, hmsgs, hreqs, htake⟩ := h
  obtain ⟨replica, htarget, hmsgs⟩ := Option.bind_eq_some_iff.mp hmsgs
  obtain ⟨row, hrow, hget⟩ := Option.bind_eq_some_iff.mp htarget
  have hi : i < row.length := (List.getElem?_eq_some_iff.mp hget).1
  have h₀ : Informed cfg i j s₀ [] := ⟨⟨hvec, hstart, hend, hnum⟩, fun hj => absurd hj (by simp)⟩
  exact h₀.run hrow hi hwf (fun k hk => List.mem_range.mp hk) hmsgs hreqs htake

theorem Settled.spec {s : Server} (hwf : ∀ row ∈ cfg, ∀ r ∈ row, r.WellFormed)
    (h : Settled cfg i j s) : Informed cfg i j s (List.range cfg.length) := by
  obtain ⟨s', hbuilt, hvec, hstart, hend, hnum, hfirst, hlast⟩ := h
  obtain ⟨hknows, hbounds⟩ := hbuilt.spec hwf
  exact ⟨⟨hvec.trans hknows.1, hstart.trans hknows.2, hend.trans hknows.3, hnum.trans hknows.4⟩,
    fun hj => ⟨hfirst.trans (hbounds hj).1, hlast.trans (hbounds hj).2⟩⟩

/-- The hash of a key as a point of the shares. -/
def point (k : Str) : ℕ := (Hash.hashFunc k).toNat

theorem point_eq (k : Str) : (point k : Int) = Hash.hashFunc k :=
  Int.toNat_of_nonneg (Hash.hashFunc_bounds k).1

theorem point_lt (k : Str) : point k < totalSlotNum := by
  have h := (Hash.hashFunc_bounds k).2
  rw [← point_eq] at h
  exact_mod_cast h

/-- **A node accepts a key just when its share contains the hash.** -/
theorem Informed.notHere_iff {s : Server} (h : Informed cfg i j s (List.range cfg.length))
    (hj : j < cfg.length) (k : Str) :
    notHere s.w.h k = false ↔ InShare totalSlotNum cfg.length j (point k) := by
  obtain ⟨hstart, hend⟩ := h.bounds (List.mem_range.mpr hj)
  rw [← within_iff, notHere, hstart, hend, ← point_eq, Server.Within]
  simp only [gt_iff_lt, Bool.or_eq_false_iff, decide_eq_false_iff_not, not_lt]

/-- The entry of the bounds at an index. -/
theorem Knows.range {s : Server} {ks : List ℕ} (h : Knows cfg i s ks) (index : ℕ) :
    s.range index = ks[index]?.map fun k => (Distribute.slotStart cfg k, Distribute.slotEnd cfg k) := by
  rw [Server.range, h.slotStart, h.slotEnd, List.getElem?_map, List.getElem?_map]
  cases ks[index]? with
  | none => rfl
  | some k => rfl

/-- On a node other than the owner, the search finds the owner and nothing else. -/
structure LeadsTo (cfg : Config) (i : ℕ) (s : Server) (c : ℕ) (k : Str) (index : ℕ) : Prop where
  refuses : notHere s.w.h k = true
  search : s.search (Hash.hashFunc k) = some index
  lt : index < s.clusterNum
  within : ∃ r, s.range index = some r ∧ Server.Within (Hash.hashFunc k) r
  unique : ∀ index' r, s.range index' = some r → Server.Within (Hash.hashFunc k) r → index' = index
  names : ∃ r, target cfg i c = some r ∧ s.clusterVec[index]? = some (some r.peer)

/-- **The search of every other node stops at the owner.** -/
theorem Informed.leadsTo {s : Server} {c : ℕ} {k : Str}
    (h : Informed cfg i j s (List.range cfg.length)) (hj : j < cfg.length) (hc : c < cfg.length)
    (hne : j ≠ c) {r : Replica} (hr : target cfg i c = some r)
    (hshare : InShare totalSlotNum cfg.length c (point k)) : ∃ index, LeadsTo cfg i s c k index := by
  have hmem : c ∈ (List.range cfg.length).filter fun l => l ≠ j :=
    List.mem_filter.mpr ⟨List.mem_range.mpr hc, decide_eq_true (Ne.symm hne)⟩
  obtain ⟨index, hindex⟩ := List.mem_iff_getElem?.mp hmem
  have hlt := (List.getElem?_eq_some_iff.mp hindex).1
  have hrange : s.range index = some (slotStart cfg c, slotEnd cfg c) := by
    rw [h.knows.range, hindex]
    rfl
  have hwithin : Server.Within (Hash.hashFunc k) (slotStart cfg c, slotEnd cfg c) := by
    rwa [← point_eq, within_iff]
  -- the shares are disjoint, so no other entry contains the hash
  have hunique : ∀ index' r', s.range index' = some r' →
      Server.Within (Hash.hashFunc k) r' → index' = index := by
    intro index' r' hr' hin
    rw [h.knows.range] at hr'
    obtain ⟨l, hl, rfl⟩ := Option.map_eq_some_iff.mp hr'
    have hl' := List.mem_range.mp (List.mem_of_mem_filter (List.mem_of_getElem? hl))
    rw [← point_eq, within_iff] at hin
    obtain rfl := hin.unique hl' hc hshare
    exact (List.getElem?_inj (List.getElem?_eq_some_iff.mp hl).1
      (List.nodup_range.filter _)).mp (hl.trans hindex.symm)
  refine ⟨index, ?_, ?_, ?_, ⟨_, hrange, hwithin⟩, hunique, r, hr, ?_⟩
  · rw [← Bool.not_eq_false, h.notHere_iff hj]
    exact fun hin => hne (hin.unique hj hc hshare)
  · refine Server.search_eq_some.mpr ⟨?_, fun l hl => ?_, fun _ => ⟨_, hrange, hwithin⟩⟩
    · rw [h.knows.clusterNum]
      exact hlt.le
    · -- an earlier entry is another cluster, whose share does not contain the hash
      obtain ⟨r', hr'⟩ : ∃ r', s.range l = some r' := by
        rw [h.knows.range, List.getElem?_eq_getElem (hl.trans hlt), Option.map_some]
        exact ⟨_, rfl⟩
      exact ⟨r', hr', fun hin => hl.ne (hunique l r' hr' hin)⟩
  · rwa [h.knows.clusterNum]
  · rw [h.knows.clusterVec, List.getElem?_map, hindex, Option.map_some, hr]
    rfl

/-- A configuration that was read has at least one row. -/
theorem length_readRows {n : ℕ} {lr : Str × List Str} (h : readRows n lr = some cfg) :
    cfg.length = n := by
  induction n generalizing lr cfg with
  | zero =>
    obtain rfl := Option.some.inj h
    rfl
  | succ n ih =>
    obtain ⟨replicaNum, -, h⟩ := Option.bind_eq_some_iff.mp h
    split_ifs at h
    obtain ⟨r, -, h⟩ := Option.bind_eq_some_iff.mp h
    obtain ⟨rows, hrows, rfl⟩ := Option.map_eq_some_iff.mp h
    rw [List.length_cons, ih hrows]

/-- A message that names a key, and is no control word. -/
def Names (com k : Str) : Prop :=
  ∃ word args, words (commandPart com) = word :: k :: args ∧ word ∉ controlWords

/-- A node that refuses the key sends the message to the peer it found. -/
theorem LeadsTo.scanAndSend {s : Server} {c index : ℕ} {k com : Str}
    (h : LeadsTo cfg i s c k index) (hnames : Names com k) (ss : Session) (t : Int)
    (connected : Bool) :
    ∃ y, MuseKv.scanAndSend s ss com t connected = some y ∧
      y.send = .peer index (forwarded ss (commandPart com)) := by
  obtain ⟨word, args, hws, hctl⟩ := hnames
  obtain ⟨r, -, hvec⟩ := h.names
  have hexec : execute (commandPart com) (toU8 (authority ss com)) t s.w
      = some (lit "hashval " ++ toStr (Hash.hashFunc k), s.w) := by
    have href : (k :: args).head?.any (notHere s.w.h) = true := h.refuses
    rw [execute, hws, executeWords, if_neg hctl, if_pos href]
    rfl
  rw [MuseKv.scanAndSend, hexec, Option.bind_some,
    route_ask (List.prefix_append_of_prefix (by decide)).isInfix, ask_hashval]
  have hsearch : Server.search { s with w := s.w } (Hash.hashFunc k) = some index := h.search
  rw [hsearch, Option.bind_some, hvec]
  exact ⟨_, rfl, rfl⟩

/-- The two nodes as they are built; the second one then gets a text under the key `k`. -/
def twoNodes (x : Str) : ℕ → Server
  | 0 =>
    { w := { World.fresh 5001 with h := (Hash.new 5001).setBoundary 0 5002 }
      clusterVec := [some (lit "10.0.0.2", 5002)]
      slotStart := [5003]
      slotEnd := [10006]
      clusterNum := 1
      clientNum := -1 }
  | _ =>
    { w := { World.fresh 5002 with
        h := ((Hash.new 5002).setBoundary 5003 10006).set (lit "k") (.string x) 0 0 }
      clusterVec := [some (lit "10.0.0.1", 5001)]
      slotStart := [0]
      slotEnd := [5002]
      clusterNum := 1
      clientNum := -1 }

theorem get_k_names : Names (lit "get k") (lit "k") := ⟨lit "get", [], by decide, by decide⟩

end Distribute

end MuseKv
