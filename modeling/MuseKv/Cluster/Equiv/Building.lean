import MuseKv.Cluster.Equiv.Coverage
import Mathlib.Data.List.Forall2
import Mathlib.Data.List.Nodup

/-!
# The distributed builder on documented configurations

The loops that build the clusters run over a whole rectangle: `max_rep` connections to every cluster.
They stay within the rows if and only if the rows are equally long, and then every node is told of
every cluster once (`buildsAll_iff`).
-/

namespace MuseKv

open General Kvstore

/-! ### Loops that may fail -/

section Loops

variable {α β γ : Type} {f : α → Option β} {g : β → List γ} {R : α → β → Prop} {as : List α}
  {bs : List β}

/-- A loop whose body fails nowhere collects the results of the body. -/
theorem mapM_eq_some_iff : as.mapM f = some bs ↔ List.Forall₂ (fun a b => f a = some b) as bs := by
  induction as generalizing bs with
  | nil => simp [eq_comm]
  | cons a as ih =>
    rw [List.mapM_cons, List.forall₂_cons_left_iff]
    constructor
    · intro h
      obtain ⟨b, hb, h⟩ := Option.bind_eq_some_iff.mp h
      obtain ⟨bs', hbs', h⟩ := Option.bind_eq_some_iff.mp h
      exact ⟨b, bs', hb, ih.mp hbs', (Option.some.inj h).symm⟩
    · rintro ⟨b, bs', hb, hbs', rfl⟩
      rw [hb, ih.mpr hbs']
      rfl

/-- A loop fails nowhere just when its body does not. -/
theorem exists_mapM_eq_some : (∃ bs, as.mapM f = some bs) ↔ ∀ a ∈ as, ∃ b, f a = some b := by
  induction as with
  | nil => simp
  | cons a as ih =>
    rw [List.forall_mem_cons, ← ih]
    constructor
    · rintro ⟨bs, h⟩
      obtain ⟨b, bs', hb, hbs', -⟩ := List.forall₂_cons_left_iff.mp (mapM_eq_some_iff.mp h)
      exact ⟨⟨b, hb⟩, bs', mapM_eq_some_iff.mpr hbs'⟩
    · rintro ⟨⟨b, hb⟩, bs, hbs⟩
      exact ⟨b :: bs, mapM_eq_some_iff.mpr (.cons hb (mapM_eq_some_iff.mp hbs))⟩

/-- A loop that counts up, cell by cell. -/
theorem mapM_range_eq_some_iff {n : ℕ} {f : ℕ → Option β} :
    (List.range n).mapM f = some bs ↔ bs.length = n ∧ ∀ i < n, f i = bs[i]? := by
  rw [mapM_eq_some_iff, List.forall₂_iff_get]
  constructor
  · rintro ⟨hlen, h⟩
    rw [List.length_range] at hlen
    refine ⟨hlen.symm, fun i hi => ?_⟩
    have hget := h i (by simpa using hi) (hlen ▸ hi)
    rw [List.getElem?_eq_getElem (hlen ▸ hi)]
    simpa using hget
  · rintro ⟨hlen, h⟩
    refine ⟨by rw [List.length_range, hlen], fun i hi hi' => ?_⟩
    have hget := h i (by simpa using hi)
    rw [List.getElem?_eq_getElem hi'] at hget
    simpa using hget

/-- What a loop collects for one of its values, when the other values contribute nothing. -/
theorem flatMap_eq_of_unique {a : α} (h : List.Forall₂ R as bs) (hnd : as.Nodup) (ha : a ∈ as)
    (hother : ∀ a' b, R a' b → a' ≠ a → g b = []) : ∃ b, R a b ∧ bs.flatMap g = g b := by
  have hnone : ∀ {as bs}, List.Forall₂ R as bs → a ∉ as → bs.flatMap g = [] := by
    intro as bs h
    induction h with
    | nil => exact fun _ => rfl
    | cons hab _ ih =>
      intro hmem
      rw [List.mem_cons, not_or] at hmem
      rw [List.flatMap_cons, hother _ _ hab (Ne.symm hmem.1), ih hmem.2, List.nil_append]
  induction h with
  | nil => exact absurd ha List.not_mem_nil
  | @cons a' b as bs hab h ih =>
    obtain ⟨hmem, hnd⟩ := List.nodup_cons.mp hnd
    rw [List.flatMap_cons]
    rcases List.mem_cons.mp ha with rfl | ha
    · exact ⟨b, hab, by rw [hnone h hmem, List.append_nil]⟩
    · obtain ⟨b', hb', hbs⟩ := ih hnd ha
      exact ⟨b', hb', by rw [hother _ _ hab fun heq => hmem (heq ▸ ha), hbs, List.nil_append]⟩

theorem exists_of_mem_forall₂ (h : List.Forall₂ R as bs) {b : β} (hb : b ∈ bs) :
    ∃ a ∈ as, R a b := by
  induction h with
  | nil => exact absurd hb List.not_mem_nil
  | @cons a b' as bs hab _ ih =>
    rcases List.mem_cons.mp hb with rfl | hb
    · exact ⟨a, List.mem_cons_self .., hab⟩
    · obtain ⟨a', ha', hab'⟩ := ih hb
      exact ⟨a', List.mem_cons_of_mem _ ha', hab'⟩

end Loops

/-! ### Documented configurations -/

/-- An address of a configuration: two words on one line, without a NUL byte. -/
structure Address where
  ip : Str
  port : Str
  ip_ne : ip ≠ []
  port_ne : port ≠ []
  ip_word : ∀ c ∈ ip, isBlank c = false
  port_word : ∀ c ∈ port, isBlank c = false
  nul : (0 : UInt8) ∉ ip ++ port
  line : (10 : UInt8) ∉ ip ++ port

namespace Address

/-- `[IP ADDRESS] [PORT NUMBER]`. -/
def text (a : Address) : Str := a.ip ++ byte ' ' :: a.port

theorem words_text (a : Address) : words a.text = [a.ip, a.port] := by
  rw [text, words_cons_blank a.ip_ne a.ip_word, words_eq_singleton a.port_ne a.port_word]

end Address

/-- `127.0.0.1` and a port. -/
def localPort (port : ℕ) : Address where
  ip := lit "127.0.0.1"
  port := toStr port
  ip_ne := by decide
  port_ne := toStr_ne_nil port
  ip_word := not_blank_of_all (by decide)
  port_word c hc := (mem_words (s := toStr port) (by rw [words_toStr]; exact List.mem_singleton_self _)
    c hc).1
  nul := by
    rw [List.mem_append, not_or]
    exact ⟨by decide, not_mem_toStr (by decide) (by decide) port⟩
  line := by
    rw [List.mem_append, not_or]
    exact ⟨by decide, not_mem_toStr (by decide) (by decide) port⟩

/-- The slots of cluster `k` of `n`, as they are printed. -/
def slotsOf (n k : ℕ) : Str :=
  toStr (shareStart totalSlotNum n k : ℕ) ++ lit " " ++
    toStr ((shareStop totalSlotNum n k : ℕ) - 1)

/-- The message that tells a node of cluster `j` of an address of cluster `k` and of its slots. -/
def clusterMessage (n j k : ℕ) (a : Address) : Str :=
  (if k = j then lit "myinfo " else lit "clust ") ++ a.text ++ lit " " ++ slotsOf n k

namespace Distribute

/-- `replica [IP ADDRESS] [PORT NUMBER]`. -/
def line (a : Address) : Str := lit "replica " ++ a.text

/-- The lines of a configuration. -/
def documented (rows : List (List Address)) : List Str :=
  (lit "totalcluster " ++ toStr rows.length) :: rows.flatMap fun row =>
    (lit "replicanumber " ++ toStr row.length) :: row.map line

/-- What the builder holds of an address. -/
def replica (a : Address) : Replica := ⟨a.ip, atoi a.port, line a⟩

/-- What the builder holds of a configuration. -/
def config (rows : List (List Address)) : Config := rows.map (List.map replica)

variable {rows : List (List Address)} {row : List Address} {cfg : Config} {i j k : ℕ}

theorem words_line (a : Address) : words (line a) = [lit "replica", a.ip, a.port] := by
  change words (lit "replica" ++ byte ' ' :: a.text) = _
  rw [words_cons_blank (by decide) (not_blank_of_all (by decide)), a.words_text]

theorem substr_line (a : Address) : substr (line a) 8 = some a.text := by
  have hlen : (lit "replica ").length = 8 := rfl
  rw [substr, line, List.length_append, if_pos (by omega), ← hlen, List.drop_left]

/-- The number behind a word. -/
theorem words_count {s w : Str} (hs : s = w ++ [byte ' ']) (hw : w ≠ [])
    (h : ∀ c ∈ w, isBlank c = false) (n : ℕ) : words (s ++ toStr n) = [w, toStr n] := by
  rw [hs, List.append_assoc, List.singleton_append, words_cons_blank hw h, words_toStr]

/-- The line in front of the replicas of a row. -/
theorem words_replicanumber (n : ℕ) :
    words (lit "replicanumber " ++ toStr n) = [lit "replicanumber", toStr n] :=
  words_count (by decide) (by decide) (not_blank_of_all (by decide)) n

theorem atoi_count {n : ℕ} (h : n < 2 ^ 31) : atoi (toStr n) = n :=
  atoi_toStr_self (by omega) (by exact_mod_cast h)

theorem atoi_lt (s : Str) : (atoi s).toNat < 2 ^ 31 := by
  have h : atoi s < 2 ^ 31 := (wrap32_bounds _).2
  omega

/-! ### The configuration that is read -/

theorem readReplicas_line (row : List Address) (lr : Str) (rest : List Str) :
    ∃ lr', readReplicas row.length (lr, row.map line ++ rest)
      = some (row.map replica, (lr', rest)) := by
  induction row generalizing lr with
  | nil => exact ⟨lr, rfl⟩
  | cons a row ih =>
    obtain ⟨lr', h⟩ := ih (line a)
    refine ⟨lr', ?_⟩
    rw [List.map_cons, List.cons_append, List.length_cons, readReplicas]
    simp only [getline, words_line, h]
    rfl

theorem readRows_documented (h : ∀ row ∈ rows, row.length < 2 ^ 31) (lr : Str) :
    readRows rows.length (lr, rows.flatMap fun row =>
      (lit "replicanumber " ++ toStr row.length) :: row.map line) = some (config rows) := by
  induction rows generalizing lr with
  | nil => rfl
  | cons row rows ih =>
    obtain ⟨hrow, hrows⟩ := List.forall_mem_cons.mp h
    obtain ⟨lr', hread⟩ := readReplicas_line row (lit "replicanumber " ++ toStr row.length)
      (rows.flatMap fun row => (lit "replicanumber " ++ toStr row.length) :: row.map line)
    rw [List.flatMap_cons, List.cons_append, List.length_cons, readRows]
    simp only [getline, words_replicanumber, List.getElem?_cons_succ, List.getElem?_cons_zero,
      Option.bind_some, atoi_count hrow, Int.toNat_natCast, hread, ih hrows, Option.map_some]
    rw [if_neg (by omega)]
    rfl

/-- The first line of a documented configuration. -/
theorem words_totalcluster (n : ℕ) :
    words (lit "totalcluster " ++ toStr n) = [lit "totalcluster", toStr n] :=
  words_count (by decide) (by decide) (not_blank_of_all (by decide)) n

/-- **A documented configuration is read as it was written**, if its counts fit an `int`. -/
theorem readConfig_documented (hne : rows ≠ []) (hlt : rows.length < 2 ^ 31)
    (h : ∀ row ∈ rows, row.length < 2 ^ 31) : readConfig (documented rows) = some (config rows) := by
  have hpos := List.length_pos_of_ne_nil hne
  rw [readConfig, documented]
  simp only [getline, words_totalcluster, List.getElem?_cons_succ, List.getElem?_cons_zero,
    Option.bind_some, atoi_count hlt, Int.toNat_natCast, readRows_documented h]
  rw [if_neg (by omega)]

/-- Every count that was read fits an `int`. -/
theorem length_of_readReplicas {m : ℕ} {lr : Str × List Str} {r : List Replica × (Str × List Str)}
    (h : readReplicas m lr = some r) : r.1.length = m := by
  induction m generalizing lr r with
  | zero =>
    obtain rfl := Option.some.inj h
    rfl
  | succ m ih =>
    obtain ⟨ip, -, h⟩ := Option.bind_eq_some_iff.mp h
    obtain ⟨port, -, h⟩ := Option.bind_eq_some_iff.mp h
    obtain ⟨r', hr', rfl⟩ := Option.map_eq_some_iff.mp h
    rw [List.length_cons, ih hr']

theorem length_lt_of_readRows {n : ℕ} {lr : Str × List Str} (h : readRows n lr = some cfg) :
    ∀ row ∈ cfg, row.length < 2 ^ 31 := by
  induction n generalizing lr cfg with
  | zero =>
    obtain rfl := Option.some.inj h
    exact fun row hrow => absurd hrow List.not_mem_nil
  | succ n ih =>
    obtain ⟨replicaNum, -, h⟩ := Option.bind_eq_some_iff.mp h
    split_ifs at h
    obtain ⟨r, hr, h⟩ := Option.bind_eq_some_iff.mp h
    obtain ⟨rows, hrows, rfl⟩ := Option.map_eq_some_iff.mp h
    refine List.forall_mem_cons.mpr ⟨?_, ih hrows⟩
    rw [length_of_readReplicas hr]
    exact atoi_lt _

theorem length_lt_of_readConfig {lines : List Str} (h : readConfig lines = some cfg) :
    cfg.length < 2 ^ 31 ∧ ∀ row ∈ cfg, row.length < 2 ^ 31 := by
  obtain ⟨clusterNum, -, h⟩ := Option.bind_eq_some_iff.mp h
  split_ifs at h
  refine ⟨?_, length_lt_of_readRows h⟩
  rw [length_readRows h]
  exact atoi_lt _

/-! ### The loops over the rectangle -/

theorem maxRep_eq (cfg : Config) : maxRep cfg = (cfg.map List.length).foldl max 1 := by
  rw [maxRep, List.foldl_map]
  congr
  funext m row
  split_ifs with h
  · rw [max_eq_right (by omega)]
  · rw [max_eq_left (by omega)]

/-- **`max_rep` is the length of the longest row**, and at least `1`. -/
theorem maxRep_le_iff {b : ℕ} : maxRep cfg ≤ b ↔ 1 ≤ b ∧ ∀ row ∈ cfg, row.length ≤ b := by
  have hfold : ∀ (l : List ℕ) (m : ℕ), l.foldl max m ≤ b ↔ m ≤ b ∧ ∀ x ∈ l, x ≤ b := by
    intro l
    induction l with
    | nil => simp
    | cons x l ih =>
      intro m
      rw [List.foldl_cons, ih, max_le_iff, List.forall_mem_cons, and_assoc]
  rw [maxRep_eq, hfold, List.forall_mem_map]

theorem target_config (i j : ℕ) :
    target (config rows) i j = (rows[j]?.bind fun row => row[i]?).map replica := by
  rw [target, config, List.getElem?_map]
  cases rows[j]? with
  | none => rfl
  | some row => exact List.getElem?_map

/-- A connection is made for its indices, to the node they name. -/
theorem clusterConnection_eq_some {c : Connection} (h : clusterConnection cfg i j = some c) :
    c.replica = i ∧ c.cluster = j ∧ target cfg i j = some c.node := by
  obtain ⟨r, hr, h⟩ := Option.bind_eq_some_iff.mp h
  obtain ⟨coms, -, rfl⟩ := Option.map_eq_some_iff.mp h
  exact ⟨rfl, rfl, hr⟩

/-- The connections of the loops, one for each pair of indices. -/
theorem clusterBuilding_eq_some {conns : List Connection} (h : clusterBuilding cfg = some conns) :
    ∃ rounds, List.Forall₂ (fun i round =>
      List.Forall₂ (fun j c => clusterConnection cfg i j = some c) (List.range cfg.length) round)
      (List.range (maxRep cfg)) rounds ∧ conns = rounds.flatten := by
  obtain ⟨rounds, hrounds, rfl⟩ := Option.map_eq_some_iff.mp h
  refine ⟨rounds, (mapM_eq_some_iff.mp hrounds).imp ?_, rfl⟩
  exact fun i round hround => mapM_eq_some_iff.mp hround

/-- **What a node gets from the loops** are the messages of the one connection with its indices. -/
theorem sent_clusterBuilding {conns : List Connection} (h : clusterBuilding cfg = some conns)
    (hi : i < maxRep cfg) (hj : j < cfg.length) :
    ∃ c, clusterConnection cfg i j = some c ∧ sent conns i j = c.coms := by
  obtain ⟨rounds, hrounds, rfl⟩ := clusterBuilding_eq_some h
  -- first the round `i`, then the connection to cluster `j` in it
  obtain ⟨round, hround, heq⟩ := flatMap_eq_of_unique (g := fun round => sent round i j) hrounds
    List.nodup_range (List.mem_range.mpr hi) (by
      intro i' round hround hne
      refine List.flatMap_eq_nil_iff.mpr fun c hc => ?_
      obtain ⟨j', -, hc⟩ := exists_of_mem_forall₂ hround hc
      rw [if_neg fun hand => hne ((clusterConnection_eq_some hc).1 ▸ hand.1)])
  obtain ⟨c, hc, heq'⟩ := flatMap_eq_of_unique hround List.nodup_range (List.mem_range.mpr hj)
    (g := fun c => if c.replica = i ∧ c.cluster = j then c.coms else []) (by
      intro j' c hc hne
      rw [if_neg fun hand => hne ((clusterConnection_eq_some hc).2.1 ▸ hand.2)])
  obtain ⟨hreplica, hcluster, -⟩ := clusterConnection_eq_some hc
  rw [if_pos ⟨hreplica, hcluster⟩] at heq'
  refine ⟨c, hc, ?_⟩
  rw [sent, ← List.flatMap_id, List.flatMap_assoc]
  exact heq.trans heq'

/-- **Every connection of the builder is made to the node its indices name.** -/
theorem target_of_mem {conns : List Connection} (h : clusterBuilding cfg = some conns)
    {c : Connection} (hc : c ∈ replicaBuilding cfg ++ conns) :
    target cfg c.replica c.cluster = some c.node := by
  rcases List.mem_append.mp hc with hc | hc
  · obtain ⟨⟨row, j⟩, hrow, hc⟩ := List.mem_flatMap.mp hc
    obtain ⟨⟨r, i⟩, hr, rfl⟩ := List.mem_map.mp hc
    have hrow : cfg[j]? = some row := List.mem_zipIdx_iff_getElem?.mp hrow
    rw [target, hrow]
    exact List.mem_zipIdx_iff_getElem?.mp hr
  · obtain ⟨rounds, hrounds, rfl⟩ := clusterBuilding_eq_some h
    obtain ⟨round, hround, hc⟩ := List.mem_flatten.mp hc
    obtain ⟨i, -, hround⟩ := exists_of_mem_forall₂ hrounds hround
    obtain ⟨j, -, hc⟩ := exists_of_mem_forall₂ hround hc
    obtain ⟨rfl, rfl, htarget⟩ := clusterConnection_eq_some hc
    exact htarget

/-! ### What the nodes are told -/

/-- A message that tells a node of its slots or of another cluster. -/
def isClusterCom (com : Str) : Bool :=
  (words com).head? = some (lit "myinfo") || (words com).head? = some (lit "clust")

/-- A message to a node of cluster `j` about cluster `k`: it names a node of cluster `k` and the slots
of cluster `k`, and it is the `myinfo` message just when the clusters are the same. -/
def Informs (rows : List (List Address)) (j k : ℕ) (com : Str) : Prop :=
  ∃ row, rows[k]? = some row ∧ ∃ a ∈ row, com = clusterMessage rows.length j k a

/-- **The builder handles a configuration.**  It stays within its arrays, and every node of the
configuration is connected to at its address and is told of every cluster once. -/
def BuildsAll (rows : List (List Address)) : Prop :=
  ∃ conns, build (documented rows) = some conns ∧
    ∀ j row i a, rows[j]? = some row → row[i]? = some a →
      (∀ c ∈ conns, c.replica = i → c.cluster = j → c.node = replica a) ∧
        List.Forall₂ (Informs rows j) (List.range rows.length) ((sent conns i j).filter isClusterCom)

/-- The messages that build the replicas tell nothing of the clusters. -/
theorem not_isClusterCom_replicaBuilding {c : Connection} (hc : c ∈ replicaBuilding (config rows))
    {com : Str} (hcom : com ∈ c.coms) : isClusterCom com = false := by
  obtain ⟨⟨row, j⟩, hrow, hc⟩ := List.mem_flatMap.mp hc
  obtain ⟨⟨r, i⟩, -, rfl⟩ := List.mem_map.mp hc
  have hhead : ∀ {w : Str} {ws : List Str}, words com = w :: ws → w ≠ lit "myinfo" →
      w ≠ lit "clust" → isClusterCom com = false := by
    intro w ws hws hmyinfo hclust
    simp [isClusterCom, hws, hmyinfo, hclust]
  rcases List.mem_append.mp hcom with hcom | hcom
  · rcases List.mem_cons.mp hcom with rfl | hcom
    · exact hhead (words_replicanumber _) (by decide) (by decide)
    · obtain ⟨r', hr', rfl⟩ := List.mem_map.mp hcom
      have hr' : r' ∈ row := List.mem_of_mem_eraseIdx hr'
      obtain ⟨as, -, rfl⟩ := List.mem_map.mp (List.mem_of_getElem? (List.mem_zipIdx_iff_getElem?.mp hrow))
      obtain ⟨a, -, rfl⟩ := List.mem_map.mp hr'
      exact hhead (words_line a) (by decide) (by decide)
  · obtain rfl := List.mem_singleton.mp hcom
    decide

/-- **One message**, on a connection whose number every row has. -/
theorem clustCom_config {row' : List Address} {a : Address} (hrow : rows[j]? = some row)
    (hi : i < row.length) (hrow' : rows[k]? = some row') (ha : row'[i]? = some a) :
    clustCom (config rows) i j k = some (clusterMessage rows.length j k a) := by
  have hj : (config rows)[j]? = some (row.map replica) := by
    rw [config, List.getElem?_map, hrow, Option.map_some]
  have hk : (config rows)[k]? = some (row'.map replica) := by
    rw [config, List.getElem?_map, hrow', Option.map_some]
  have hlen : (config rows).length = rows.length := List.length_map _
  have hcom : substr (replica a).com 8 = some a.text := substr_line a
  rw [clustCom, hj, Option.bind_some, List.length_map, if_neg (by omega), hk, Option.bind_some,
    Nat.mod_eq_of_lt hi, List.getElem?_map, ha, Option.map_some, Option.bind_some, hcom,
    Option.map_some, slotStart_eq, slotEnd_eq, hlen, clusterMessage, slotsOf]
  simp only [List.append_assoc]

/-- A message that informs is kept by the filter. -/
theorem isClusterCom_of_informs {com : Str} (h : Informs rows j k com) : isClusterCom com = true := by
  obtain ⟨row, -, a, -, rfl⟩ := h
  have hhead : (words (clusterMessage rows.length j k a)).head?
      = some (if k = j then lit "myinfo" else lit "clust") := by
    simp only [clusterMessage, List.append_assoc]
    split_ifs
    · change (words (lit "myinfo" ++ byte ' ' :: _)).head? = _
      rw [words_cons_blank (by decide) (not_blank_of_all (by decide)), List.head?_cons]
    · change (words (lit "clust" ++ byte ' ' :: _)).head? = _
      rw [words_cons_blank (by decide) (not_blank_of_all (by decide)), List.head?_cons]
  rw [isClusterCom, hhead]
  split_ifs
  · rfl
  · rfl

/-- **One connection**, with a number that every row has. -/
theorem clusterConnection_config (hrow : rows[j]? = some row) (hall : ∀ row ∈ rows, i < row.length) :
    ∃ r coms, clusterConnection (config rows) i j = some ⟨j, i, r, coms ++ [lit "quit"]⟩ ∧
      List.Forall₂ (Informs rows j) (List.range rows.length) coms := by
  have hi := hall row (List.mem_of_getElem? hrow)
  have hlen : (config rows).length = rows.length := List.length_map _
  have htarget : target (config rows) i j = some (replica row[i]) := by
    rw [target_config, hrow, Option.bind_some, List.getElem?_eq_getElem hi, Option.map_some]
  have hcom : ∀ k < rows.length, ∃ com,
      clustCom (config rows) i j k = some com ∧ Informs rows j k com := by
    intro k hk
    have hik := hall rows[k] (List.getElem_mem hk)
    have hrow' := List.getElem?_eq_getElem hk
    exact ⟨_, clustCom_config hrow hi hrow' (List.getElem?_eq_getElem hik), rows[k], hrow', _,
      List.getElem_mem hik, rfl⟩
  obtain ⟨coms, hcoms⟩ := exists_mapM_eq_some.mpr fun k hk =>
    (hcom k (List.mem_range.mp hk)).imp fun _ h => h.1
  have hinforms : List.Forall₂ (Informs rows j) (List.range rows.length) coms := by
    have hand := (List.forall₂_and_left (p := fun k => k < rows.length) _ _).mpr
      ⟨fun k hk => List.mem_range.mp hk, mapM_eq_some_iff.mp hcoms⟩
    refine hand.imp fun k com h => ?_
    obtain ⟨com', hcom', hinf⟩ := hcom k h.1
    obtain rfl := Option.some.inj (h.2.symm.trans hcom')
    exact hinf
  refine ⟨replica row[i], coms, ?_, hinforms⟩
  rw [clusterConnection, htarget, Option.bind_some, clustComs, htarget, Option.bind_some, hlen,
    hcoms, Option.map_some]

/-! ### Rows of one length -/

theorem maxRep_config {m : ℕ} (hne : rows ≠ []) (hm : 0 < m) (hall : ∀ row ∈ rows, row.length = m) :
    maxRep (config rows) = m := by
  have hlens : ∀ row ∈ config rows, row.length = m := by
    intro row hrow
    obtain ⟨as, has, rfl⟩ := List.mem_map.mp hrow
    rw [List.length_map, hall as has]
  refine le_antisymm (maxRep_le_iff.mpr ⟨hm, fun row hrow => (hlens row hrow).le⟩) ?_
  -- some row is there, and it is that long
  obtain ⟨row, hrow⟩ := List.exists_mem_of_ne_nil _ hne
  have hmem : row.map replica ∈ config rows := List.mem_map_of_mem hrow
  have hle := (maxRep_le_iff.mp le_rfl).2 _ hmem
  rwa [hlens _ hmem] at hle

/-- The connections to the clusters are made when no row ends early. -/
theorem exists_clusterBuilding (hall : ∀ row ∈ rows, maxRep (config rows) ≤ row.length) :
    ∃ conns, clusterBuilding (config rows) = some conns := by
  obtain ⟨rounds, hrounds⟩ : ∃ rounds, (List.range (maxRep (config rows))).mapM (fun i =>
      (List.range (config rows).length).mapM fun j => clusterConnection (config rows) i j)
        = some rounds := by
    refine exists_mapM_eq_some.mpr fun i hi => exists_mapM_eq_some.mpr fun j hj => ?_
    rw [List.mem_range] at hi hj
    rw [config, List.length_map] at hj
    obtain ⟨r, coms, hc, -⟩ := clusterConnection_config (List.getElem?_eq_getElem hj)
      fun row hrow => hi.trans_le (hall row hrow)
    exact ⟨_, hc⟩
  exact ⟨rounds.flatten, by rw [clusterBuilding, hrounds, Option.map_some]⟩

/-- The first half of the building tells nobody of a cluster. -/
theorem filter_sent_replicaBuilding (rows : List (List Address)) (i j : ℕ) :
    (sent (replicaBuilding (config rows)) i j).filter isClusterCom = [] := by
  rw [List.filter_eq_nil_iff]
  intro com hcom
  obtain ⟨c, hc, hcom⟩ := List.mem_flatMap.mp hcom
  split_ifs at hcom
  · rw [not_isClusterCom_replicaBuilding hc hcom]
    exact Bool.false_ne_true
  · exact absurd hcom List.not_mem_nil

/-- **Rows of one length are built.** -/
theorem buildsAll_of_length {m : ℕ} (hne : rows ≠ []) (hlt : rows.length < 2 ^ 31) (hm : 0 < m)
    (hm' : m < 2 ^ 31) (hall : ∀ row ∈ rows, row.length = m) : BuildsAll rows := by
  have hread : readConfig (documented rows) = some (config rows) :=
    readConfig_documented hne hlt fun row hrow => by rw [hall row hrow]; exact hm'
  have hmax := maxRep_config hne hm hall
  obtain ⟨conns, hcluster⟩ := exists_clusterBuilding fun row hrow => (hmax.trans (hall row hrow).symm).le
  refine ⟨replicaBuilding (config rows) ++ conns, ?_, ?_⟩
  · rw [build, hread, Option.bind_some, hcluster, Option.map_some]
  · intro j row i a hrow ha
    have hj : j < (config rows).length :=
      (List.length_map _).symm ▸ (List.getElem?_eq_some_iff.mp hrow).1
    have hi : i < m := by
      rw [← hall row (List.mem_of_getElem? hrow)]
      exact (List.getElem?_eq_some_iff.mp ha).1
    constructor
    · intro c hc hci hcj
      have htarget := target_of_mem hcluster hc
      rw [hci, hcj, target_config, hrow, Option.bind_some, ha, Option.map_some] at htarget
      exact (Option.some.inj htarget).symm
    · -- the messages of the replicas are dropped, and so is `quit`
      obtain ⟨c, hc, hsent⟩ := sent_clusterBuilding hcluster (hmax ▸ hi) hj
      obtain ⟨r, coms, hc', hcoms⟩ := clusterConnection_config hrow
        fun row hrow => by rw [hall row hrow]; exact hi
      obtain rfl := Option.some.inj (hc.symm.trans hc')
      have hkept : coms.filter isClusterCom = coms := by
        rw [List.filter_eq_self]
        intro com hcom
        obtain ⟨k, -, hinf⟩ := exists_of_mem_forall₂ hcoms hcom
        exact isClusterCom_of_informs hinf
      have hquit : [lit "quit"].filter isClusterCom = [] := by decide
      rw [sent, List.flatMap_append, ← sent, ← sent, List.filter_append, filter_sent_replicaBuilding,
        List.nil_append, hsent, List.filter_append, hkept, hquit, List.append_nil]
      exact hcoms

/-! ### Rows that are built -/

/-- A node that is told of the clusters is within the counts that were read. -/
theorem BuildsAll.lt {a : Address} (h : BuildsAll rows) (hrow : rows[j]? = some row)
    (ha : row[i]? = some a) : j + 1 < 2 ^ 31 ∧ i + 1 < 2 ^ 31 := by
  obtain ⟨conns, hbuild, hconns⟩ := h
  obtain ⟨cfg, hread, hbuild⟩ := Option.bind_eq_some_iff.mp hbuild
  obtain ⟨conns, hcluster, rfl⟩ := Option.map_eq_some_iff.mp hbuild
  obtain ⟨-, hforall⟩ := hconns j row i a hrow ha
  have hne : (sent (replicaBuilding cfg ++ conns) i j).filter isClusterCom ≠ [] := by
    have hj : j < rows.length := (List.getElem?_eq_some_iff.mp hrow).1
    rw [← List.length_pos_iff_ne_nil, ← hforall.length_eq, List.length_range]
    omega
  -- some connection has its indices, and so the arrays do
  obtain ⟨com, hcom⟩ := List.exists_mem_of_ne_nil _ hne
  obtain ⟨c, hc, hcom⟩ := List.mem_flatMap.mp (List.mem_of_mem_filter hcom)
  split_ifs at hcom with hindices
  · obtain ⟨rfl, rfl⟩ := hindices
    obtain ⟨row', hrow', hr⟩ := Option.bind_eq_some_iff.mp (target_of_mem hcluster hc)
    obtain ⟨hlt, hlts⟩ := length_lt_of_readConfig hread
    have hj := (List.getElem?_eq_some_iff.mp hrow').1
    have hi := (List.getElem?_eq_some_iff.mp hr).1
    have hlts := hlts row' (List.mem_of_getElem? hrow')
    omega
  · exact absurd hcom List.not_mem_nil

/-- **The loops stay within the rows** only if every row is as long as the longest. -/
theorem maxRep_le_of_clusterBuilding {conns : List Connection} (h : clusterBuilding cfg = some conns)
    {row : List Replica} (hrow : row ∈ cfg) : maxRep cfg ≤ row.length := by
  obtain ⟨j, hj⟩ := List.mem_iff_getElem?.mp hrow
  have hlt : j < cfg.length := (List.getElem?_eq_some_iff.mp hj).1
  by_contra hmax
  -- the connection behind the end of the row is one of the rectangle
  obtain ⟨c, hc, -⟩ := sent_clusterBuilding h (not_le.mp hmax) hlt
  obtain ⟨-, -, htarget⟩ := clusterConnection_eq_some hc
  rw [target, hj, Option.bind_some, List.getElem?_eq_none le_rfl] at htarget
  exact absurd htarget (by simp)

/-- **The builder handles a documented configuration if and only if** its rows are equally long and
its counts fit an `int`. -/
theorem buildsAll_iff (hne : rows ≠ []) (hrows : ∀ row ∈ rows, row ≠ []) :
    BuildsAll rows ↔ (∀ row ∈ rows, ∀ row' ∈ rows, row.length = row'.length) ∧
      rows.length < 2 ^ 31 ∧ ∀ row ∈ rows, row.length < 2 ^ 31 := by
  constructor
  · intro h
    have hlast : ∀ row ∈ rows, row.length < 2 ^ 31 := by
      intro row hrow
      obtain ⟨j, hj⟩ := List.mem_iff_getElem?.mp hrow
      have hpos := List.length_pos_of_ne_nil (hrows row hrow)
      have hlt := (h.lt hj (List.getElem?_eq_getElem (Nat.sub_lt hpos Nat.one_pos))).2
      omega
    have hlen : rows.length < 2 ^ 31 := by
      have hpos := List.length_pos_of_ne_nil hne
      have hj := List.getElem?_eq_getElem (Nat.sub_lt hpos Nat.one_pos)
      have hpos' := List.length_pos_of_ne_nil (hrows _ (List.mem_of_getElem? hj))
      have hlt := (h.lt hj (List.getElem?_eq_getElem hpos')).1
      omega
    refine ⟨?_, hlen, hlast⟩
    obtain ⟨conns, hbuild, -⟩ := h
    rw [build, readConfig_documented hne hlen hlast, Option.bind_some] at hbuild
    obtain ⟨conns', hcluster, -⟩ := Option.map_eq_some_iff.mp hbuild
    -- no row ends before the longest one does
    have hmax : ∀ row ∈ rows, row.length = maxRep (config rows) := by
      intro row hrow
      have hmem : row.map replica ∈ config rows := List.mem_map_of_mem hrow
      have hle := maxRep_le_of_clusterBuilding hcluster hmem
      have hge := (maxRep_le_iff.mp le_rfl).2 _ hmem
      rw [List.length_map] at hle hge
      exact le_antisymm hge hle
    exact fun row hrow row' hrow' => (hmax row hrow).trans (hmax row' hrow').symm
  · rintro ⟨heq, hlen, hlast⟩
    obtain ⟨row, hrow⟩ := List.exists_mem_of_ne_nil _ hne
    exact buildsAll_of_length hne hlen (List.length_pos_of_ne_nil (hrows row hrow)) (hlast row hrow)
      fun row' hrow' => heq row' hrow' row hrow

/-! ### Two clusters -/

/-- Two clusters of one node each. -/
theorem buildsAll_two : [[localPort 5050], [localPort 5051]] ≠ [] ∧
    BuildsAll [[localPort 5050], [localPort 5051]] :=
  ⟨by simp, (buildsAll_iff (by simp) (by simp)).mpr (by simp)⟩

/-- **A configuration of one node and two nodes** makes the loops read behind the end of a row. -/
theorem not_buildsAll_unequal :
    build (documented [[localPort 5050], [localPort 5051, localPort 5052]]) = none ∧
      ¬ ∀ rows : List (List Address), rows ≠ [] → (∀ row ∈ rows, row ≠ []) → BuildsAll rows := by
  have hnone : build (documented [[localPort 5050], [localPort 5051, localPort 5052]]) = none := by
    have hread : readConfig (documented [[localPort 5050], [localPort 5051, localPort 5052]])
        = some (config [[localPort 5050], [localPort 5051, localPort 5052]]) :=
      readConfig_documented (by simp) (by simp) (by simp)
    rw [build, hread]
    rfl
  refine ⟨hnone, fun h => ?_⟩
  obtain ⟨conns, hbuild, -⟩ := h [[localPort 5050], [localPort 5051, localPort 5052]] (by simp) (by simp)
  rw [hnone] at hbuild
  exact nomatch hbuild

end Distribute

end MuseKv
