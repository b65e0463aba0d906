import MuseKv.Replica.Builder
import MuseKv.Replica.Equiv.Build
import MuseKv.Server.Equiv.Write

/-!
# What `replica.cpp` builds

`main` reads the number of replicas and the addresses off whole lines, and a node reads them off the part
of a line in front of a backspace.  Where all connections come about both read the same (`readConfig_spec`),
so each node has a socket for every other one, with a greeting on it (`Joined.spec`).
-/

namespace MuseKv

open Kvstore Command Distribute MuseKv.Group

namespace Replication

/-! ### The lines -/

/-- The number behind the words of a line is read off the part of the line in front of a backspace. -/
theorem words_commandPart {com arg : Str} {l rest : List Str} (h : words com = l ++ arg :: rest)
    (hl : ∀ a ∈ l, backspace ∉ a) (harg : atoi arg ≠ 0) :
    ∃ arg' rest', words (commandPart com) = l ++ arg' :: rest' ∧ atoi arg' = atoi arg := by
  by_cases hcom : backspace ∈ com
  · rw [← commandPart_append_suffixPart hcom] at h
    exact words_cut_number (by decide) (by decide) (by decide) (by decide) (by decide) h hl harg
  · rw [commandPart_of_not_mem hcom]
    exact ⟨arg, rest, h, rfl⟩

/-- A line with a word at an index and one before it. -/
theorem eq_cons_cons {ws : List Str} {a b : Str} (ha : ws[0]? = some a) (hb : ws[1]? = some b) :
    ∃ rest, ws = a :: b :: rest := by
  cases ws with
  | nil => simp at ha
  | cons a' ws =>
    obtain rfl : a' = a := Option.some.inj ha
    cases ws with
    | nil => simp at hb
    | cons b' rest =>
      obtain rfl : b' = b := Option.some.inj hb
      exact ⟨rest, rfl⟩

theorem readReplicas_spec {n : ℕ} {lr : Str × List Str} {row : List Replica}
    (h : readReplicas n lr = some row) (hreach : ∀ r ∈ row, Reachable r.peer) :
    row.length = n ∧ ∀ r ∈ row, r.Names := by
  induction n generalizing lr row with
  | zero =>
    obtain rfl : [] = row := Option.some.inj h
    exact ⟨rfl, by simp⟩
  | succ n ih =>
    obtain ⟨word, hword, h⟩ := Option.bind_eq_some_iff.mp h
    split_ifs at h with hreplica
    obtain ⟨ip, hip, h⟩ := Option.bind_eq_some_iff.mp h
    obtain ⟨port, hport, h⟩ := Option.bind_eq_some_iff.mp h
    obtain ⟨rs, hrs, rfl⟩ := Option.map_eq_some_iff.mp h
    obtain ⟨hr, hreach⟩ := List.forall_mem_cons.mp hreach
    obtain ⟨hlen, hnames⟩ := ih hrs hreach
    refine ⟨by rw [List.length_cons, hlen], List.forall_mem_cons.mpr ⟨?_, hnames⟩⟩
    obtain ⟨rest, hws⟩ := eq_cons_cons hword hip
    rw [not_not] at hreplica
    rw [hws, List.getElem?_cons_succ, List.getElem?_cons_succ] at hport
    cases rest with
    | nil => simp at hport
    | cons port' rest =>
      obtain rfl : port' = port := Option.some.inj hport
      have hclean : ∀ a ∈ [word, ip], backspace ∉ a := by
        rw [List.forall_mem_cons, List.forall_mem_singleton, hreplica]
        exact ⟨by decide, hr.ip⟩
      obtain ⟨arg, rest', hcut, hatoi⟩ := words_commandPart (l := [word, ip]) hws hclean hr.port
      rw [hreplica] at hcut
      exact ⟨arg, rest', hcut, hatoi⟩

/-- **The lines are read alike** by `main` and by the nodes. -/
theorem readConfig_spec {lines : List Str} {line : Str} {row : List Replica}
    (h : readConfig lines = some (line, row)) (hreach : ∀ r ∈ row, Reachable r.peer) :
    (∀ r ∈ row, r.Names) ∧ (row ≠ [] → ∃ arg rest,
      words (commandPart line) = lit "replicanumber" :: arg :: rest ∧ atoi arg = row.length) := by
  obtain ⟨word, hword, h⟩ := Option.bind_eq_some_iff.mp h
  split_ifs at h with hnumber
  obtain ⟨arg, harg, h⟩ := Option.bind_eq_some_iff.mp h
  split_ifs at h with hneg
  obtain ⟨row', hrow, heq⟩ := Option.map_eq_some_iff.mp h
  obtain ⟨rfl, rfl⟩ := Prod.mk.inj heq
  obtain ⟨hlen, hnames⟩ := readReplicas_spec hrow hreach
  refine ⟨hnames, fun hne => ?_⟩
  rw [not_not] at hnumber
  obtain ⟨rest, hws⟩ := eq_cons_cons hword harg
  rw [hnumber] at hws
  have hpos := List.length_pos_of_ne_nil hne
  have hclean : ∀ a ∈ [lit "replicanumber"], backspace ∉ a := by decide
  obtain ⟨arg', rest', hcut, hatoi⟩ := words_commandPart (l := [lit "replicanumber"]) hws hclean
    (show atoi arg ≠ 0 by omega)
  exact ⟨arg', rest', hcut, by omega⟩

/-! ### The group -/

/-- The greetings on the connections from a node to the other ones. -/
def greetings {row : List Replica} (p : Fin row.length) : List (Task row.length) :=
  (others p).map fun q => .onWire p q (lit "replicaaccept")

/-- **The group that is built**: the sockets of each node are those of the other ones, and each new
connection holds a greeting. -/
theorem Joined.spec {lines : List Str} {line : Str} {row : List Replica} {g : Group row.length}
    (hread : readConfig lines = some (line, row)) (hreach : ∀ r ∈ row, Reachable r.peer)
    (hrow : (row.map Replica.peer).Nodup) (h : Joined line row g) :
    (∀ p, (g.servers p).replicaSock = socks p) ∧
      g.tasks.Perm ((List.finRange row.length).flatMap greetings) := by
  obtain ⟨hnames, hline⟩ := readConfig_spec hread hreach
  obtain ⟨greeted, hservers, htasks⟩ := h.servers
  have hspec : ∀ p : Fin row.length, (g.servers p).replicaSock = socks p ∧
      greeted p = (others p).map (addr row) := by
    intro p
    obtain ⟨s, ss, ss', reqs, -, hreqs, htake⟩ := hservers p
    obtain ⟨arg, rest, hws, hatoi⟩ := hline (List.ne_nil_of_length_pos p.pos)
    have hcoms : reqs.map Prod.fst = line :: (row.eraseIdx p).map Replica.com :=
      List.append_cancel_right hreqs
    obtain ⟨-, hsock, hgreeted, -⟩ := takeAll_coms hnames hws hatoi p.isLt hcoms htake
    rw [eraseIdx_eq_map_others, List.map_map] at hsock hgreeted
    exact ⟨hsock, hgreeted⟩
  refine ⟨fun p => (hspec p).1, ?_⟩
  have hgreetings : ∀ p, ((greeted p).filterMap fun a => (find row a).map fun q =>
      Task.onWire p q (lit "replicaaccept")) = greetings p := by
    intro p
    rw [(hspec p).2, List.filterMap_map, greetings, ← List.filterMap_eq_map]
    congr 1
    ext1 q
    rw [Function.comp_apply, find_peer hrow, Option.map_some]
    rfl
  rwa [funext hgreetings] at htasks

end Replication

end MuseKv
