import MuseKv.Cluster.Equiv.TryCluster

/-!
# From a configuration to a cluster

A configuration is read, its nodes are sent the messages of the builder, and take them without a fault
(`builds`).  This puts each of them in the place that the other modules start from.
-/

namespace MuseKv

open Kvstore Command

/-- A node that can take each of some messages at any time can take them all. -/
theorem Server.exists_takeAll {reqs : List (Str × Int)}
    (h : ∀ req ∈ reqs, ∀ s ss, ∃ x, scanAndSend s ss req.1 req.2 true = some x) (s : Server)
    (ss : Session) : ∃ s' r, s.takeAll ss reqs = some (s', r) := by
  induction reqs generalizing s ss with
  | nil => exact ⟨s, (ss, []), rfl⟩
  | cons req reqs ih =>
    obtain ⟨hreq, hreqs⟩ := List.forall_mem_cons.mp h
    obtain ⟨x, hx⟩ := hreq s ss
    obtain ⟨s', r, hr⟩ := ih hreqs x.server x.session
    refine ⟨s', (r.1, x.accept.toList ++ r.2), ?_⟩
    rw [takeAll, hx, Option.bind_some, hr, Option.map_some]

namespace Distribute

variable {rows : List (List Address)} {cfg : Config} {row : List Replica} {i j : ℕ}

/-! ### The messages that build the replicas -/

/-- What a loop over an array collects for one index, when the other ones contribute nothing. -/
theorem flatMap_zipIdx {α β : Type} {l : List α} {g : α × ℕ → List β} {n m : ℕ} {a : α}
    (ha : l[n]? = some a) (hother : ∀ b i, i ≠ m + n → g (b, i) = []) :
    (l.zipIdx m).flatMap g = g (a, m + n) := by
  induction l generalizing n m with
  | nil => simp at ha
  | cons b l ih =>
    rw [List.zipIdx_cons, List.flatMap_cons]
    cases n with
    | zero =>
      obtain rfl : b = a := by simpa using ha
      have hrest : (l.zipIdx (m + 1)).flatMap g = [] := by
        refine List.flatMap_eq_nil_iff.mpr fun x hx => hother x.1 x.2 ?_
        have := List.le_snd_of_mem_zipIdx hx
        omega
      rw [hrest, List.append_nil, Nat.add_zero]
    | succ n =>
      rw [hother b m (by omega), List.nil_append, ih (m := m + 1) (n := n) (by simpa using ha)]
      · rw [Nat.add_assoc, Nat.add_comm 1 n]
      · intro b i hi
        exact hother b i (by omega)

/-- **What a node gets from the first loops.** -/
theorem sent_replicaBuilding (hrow : cfg[j]? = some row) (hi : i < row.length) :
    sent (replicaBuilding cfg) i j = replicaComs row i ++ [lit "quit"] := by
  have hr := List.getElem?_eq_getElem hi
  rw [sent, replicaBuilding, List.flatMap_assoc, flatMap_zipIdx (m := 0) hrow, List.flatMap_map,
    flatMap_zipIdx (m := 0) hr, Nat.zero_add, Nat.zero_add, if_pos ⟨rfl, rfl⟩]
  · intro b k hk
    rw [Nat.zero_add] at hk
    exact if_neg fun h => hk h.1
  · intro b k hk
    rw [Nat.zero_add] at hk
    refine List.flatMap_eq_nil_iff.mpr fun c hc => ?_
    obtain ⟨r, -, rfl⟩ := List.mem_map.mp hc
    exact if_neg fun h => hk h.2

/-! ### Taking the messages -/

theorem exists_scanAndSend_replicaComs (hrow : WellFormedRow row) (hi : i < row.length) :
    ∀ com ∈ replicaComs row i, ∀ s ss t, ∃ x, scanAndSend s ss com t true = some x := by
  intro com hcom s ss t
  rcases List.mem_cons.mp hcom with rfl | hcom
  · have hclean : backspace ∉ lit "replicanumber " ++ toStr row.length := by
      rw [List.mem_append, not_or]
      exact ⟨by decide, not_mem_toStr (by decide) (by decide) _⟩
    have hws := words_replicanumber row.length
    rw [← commandPart_of_not_mem hclean] at hws
    exact ⟨_, scanAndSend_replicanumber hws (by rw [atoi_count hrow.length]; omega)⟩
  · obtain ⟨r, hr, rfl⟩ := List.mem_map.mp hcom
    obtain ⟨port, rest, hws, -⟩ := (hrow.greets r (List.mem_of_mem_eraseIdx hr)).names
    by_cases hroom : (s.repnum : Int) < s.replicaNum - 1
    · exact ⟨_, scanAndSend_replica hws hroom⟩
    · rw [scanAndSend_control hws (by decide), route_replica, Server.replicaAdd, if_neg hroom]
      exact ⟨_, rfl⟩

theorem exists_scanAndSend_clustComs (hwf : ∀ row ∈ cfg, ∀ r ∈ row, r.WellFormed)
    (hrow : cfg[j]? = some row) (hi : i < row.length) {msgs : List Str}
    (hmsgs : clustComs cfg i j = some msgs) :
    ∀ com ∈ msgs, ∀ s ss t, ∃ x, scanAndSend s ss com t true = some x := by
  intro com hcom s ss t
  obtain ⟨-, -, hmsgs⟩ := Option.bind_eq_some_iff.mp hmsgs
  obtain ⟨k, -, hk⟩ := exists_of_mem_forall₂ (mapM_eq_some_iff.mp hmsgs) hcom
  obtain ⟨r, port, -, -, hclean, hws⟩ := words_clustCom hrow hi hwf hk
  by_cases hkj : k = j
  · rw [if_pos hkj] at hws
    exact ⟨_, scanAndSend_myinfo hclean hws⟩
  · rw [if_neg hkj] at hws
    exact ⟨_, scanAndSend_clust hclean hws⟩

/-! ### Documented configurations -/

/-- **The builder puts each node in its place.**  For a configuration of rows of one length, without a
backspace and without an address twice in a row, the builder stays within its arrays; each node gets the
messages of two connections, takes them without a fault at any time, and then owns the slots of its
cluster, knows a node of every other cluster with its slots, and has a socket for every other replica. -/
theorem builds {m : ℕ} (hne : rows ≠ []) (hlt : rows.length < 2 ^ 31) (hm : 0 < m) (hm' : m < 2 ^ 31)
    (hall : ∀ row ∈ rows, row.length = m) (hclean : ∀ row ∈ rows, ∀ a ∈ row, backspace ∉ line a)
    (hnodup : ∀ row ∈ rows, (row.map fun a => (replica a).peer).Nodup) :
    ∃ conns, build (documented rows) = some conns ∧
      ∀ j row, (config rows)[j]? = some row → ∀ p : Fin row.length, ∃ first second,
        sent conns p j = first ++ [lit "quit"] ++ (second ++ [lit "quit"]) ∧
        ∀ (s₀ : Server) (ss₁ ss₂ : Session) (reqs₁ reqs₂ : List (Str × Int)),
          (s₀.clusterVec = [] ∧ s₀.slotStart = [] ∧ s₀.slotEnd = [] ∧ s₀.clusterNum = 0) →
          reqs₁.map Prod.fst = first → reqs₂.map Prod.fst = second →
          ∃ s₁ r₁ s₂ r₂, s₀.takeAll ss₁ reqs₁ = some (s₁, r₁) ∧ s₁.takeAll ss₂ reqs₂ = some (s₂, r₂) ∧
            Placed (config rows) p j s₂ ∧ Stands (config rows) row j p s₂ := by
  have hread : readConfig (documented rows) = some (config rows) :=
    readConfig_documented hne hlt fun row hrow => by rw [hall row hrow]; exact hm'
  have hmax := maxRep_config hne hm hall
  obtain ⟨conns, hcluster⟩ := exists_clusterBuilding fun row hrow => (hmax.trans (hall row hrow).symm).le
  have hlines : ∀ row ∈ config rows, ∀ r ∈ row, r.WellFormed ∧ r.Greets := by
    intro row hrow r hr
    obtain ⟨as, has, rfl⟩ := List.mem_map.mp hrow
    obtain ⟨a, ha, rfl⟩ := List.mem_map.mp hr
    exact replica_wellFormed (hclean as has a ha)
  have hrows : ∀ row ∈ config rows, WellFormedRow row := by
    intro row hrow
    refine ⟨fun r hr => (hlines row hrow r hr).2, ?_, ?_⟩
    · obtain ⟨as, has, rfl⟩ := List.mem_map.mp hrow
      rw [List.map_map]
      exact hnodup as has
    · obtain ⟨as, has, rfl⟩ := List.mem_map.mp hrow
      rw [List.length_map, hall as has]
      exact hm'
  have hwf : ∀ row ∈ config rows, ∀ r ∈ row, r.WellFormed := fun row hrow r hr => (hlines row hrow r hr).1
  refine ⟨replicaBuilding (config rows) ++ conns, ?_, fun j row hrow p => ?_⟩
  · rw [build, hread, Option.bind_some, hcluster, Option.map_some]
  have hmem := List.mem_of_getElem? hrow
  have hp : (p : ℕ) < maxRep (config rows) :=
    p.isLt.trans_le ((maxRep_le_iff.mp le_rfl).2 row hmem)
  obtain ⟨c, hc, hsent⟩ := sent_clusterBuilding hcluster hp (List.getElem?_eq_some_iff.mp hrow).1
  obtain ⟨r, -, hc⟩ := Option.bind_eq_some_iff.mp hc
  obtain ⟨msgs, hmsgs, rfl⟩ := Option.map_eq_some_iff.mp hc
  refine ⟨replicaComs row p, msgs, ?_, fun s₀ ss₁ ss₂ reqs₁ reqs₂ hfresh hreqs₁ hreqs₂ => ?_⟩
  · rw [sent, List.flatMap_append, ← sent, ← sent, sent_replicaBuilding hrow p.isLt, hsent]
  · have hall₁ : ∀ req ∈ reqs₁, ∀ s ss, ∃ x, scanAndSend s ss req.1 req.2 true = some x :=
      fun req hreq s ss => exists_scanAndSend_replicaComs (hrows row hmem) p.isLt req.1
        (hreqs₁ ▸ List.mem_map_of_mem hreq) s ss req.2
    have hall₂ : ∀ req ∈ reqs₂, ∀ s ss, ∃ x, scanAndSend s ss req.1 req.2 true = some x :=
      fun req hreq s ss => exists_scanAndSend_clustComs hwf hrow p.isLt hmsgs req.1
        (hreqs₂ ▸ List.mem_map_of_mem hreq) s ss req.2
    obtain ⟨s₁, r₁, htake₁⟩ := Server.exists_takeAll hall₁ s₀ ss₁
    obtain ⟨s₂, r₂, htake₂⟩ := Server.exists_takeAll hall₂ s₁ ss₂
    have hplaced : Placed (config rows) p j s₂ := ⟨row, s₀, s₁, s₂, ss₁, ss₂, reqs₁, reqs₂, msgs, r₁, r₂,
      hrow, p.isLt, hfresh, hreqs₁, htake₁, hmsgs, hreqs₂, htake₂, ⟨rfl, rfl, rfl, rfl, rfl, rfl, rfl, rfl⟩⟩
    exact ⟨s₁, r₁, s₂, r₂, htake₁, htake₂, hplaced, hplaced.stands hwf hrows hrow⟩

/-- The addresses of `quadRows`. -/
def quadAddresses : List (List Address) :=
  [[localPort 5001, localPort 5002], [localPort 5003, localPort 5004]]

/-- The first node of two clusters of two replicas. -/
theorem builds_quad : ∃ conns s, build (documented quadAddresses) = some conns ∧
    Stands quadRows [replica (localPort 5001), replica (localPort 5002)] 0 ⟨0, by decide⟩ s := by
  have hclean : ∀ row ∈ quadAddresses, ∀ a ∈ row, backspace ∉ line a := by
    simp only [quadAddresses, List.forall_mem_cons, List.not_mem_nil, IsEmpty.forall_iff, implies_true,
      and_true]
    exact ⟨⟨(replica_localPort _).2.1, (replica_localPort _).2.1⟩, (replica_localPort _).2.1,
      (replica_localPort _).2.1⟩
  obtain ⟨conns, hbuild, hnodes⟩ := @builds quadAddresses 2 (by decide) (by decide)
    (by decide) (by decide) (by decide) hclean (by decide)
  obtain ⟨first, second, -, htake⟩ := hnodes 0 _ rfl ⟨0, by decide⟩
  have hfst : ∀ coms : List Str, (coms.map fun com => (com, (0 : Int))).map Prod.fst = coms := by
    intro coms
    rw [List.map_map]
    exact List.map_id coms
  obtain ⟨-, -, s, -, -, -, -, hstands⟩ := htake { w := World.fresh 5001 } {} {} _ _ ⟨rfl, rfl, rfl, rfl⟩
    (hfst first) (hfst second)
  exact ⟨conns, s, hbuild, hstands⟩

end Distribute

end MuseKv
