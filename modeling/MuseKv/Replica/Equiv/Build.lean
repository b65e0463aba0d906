import MuseKv.Replica.Group
import MuseKv.Server.Equiv.Setup
import Mathlib.Data.List.FinRange

/-!
# A group of replicas that is built

A node that has taken the messages of its row counts all replicas, has a socket for every other one in
the order of the row, and its session on each of them is marked and of authority `0`
(`Group.Built.spec`).
-/

namespace MuseKv

open Kvstore Command

namespace Distribute

/-- A line that greets: behind the word `replica` stand the host and the port, those that
`readReplicas` found. -/
def Replica.Greets (r : Replica) : Prop :=
  backspace ∉ r.com ∧
    ∃ port rest, words r.com = lit "replica" :: r.ip :: port :: rest ∧ atoi port = r.port

/-- What a node reads of a line in front of a backspace, if there is one, are the host and the port. -/
def Replica.Names (r : Replica) : Prop :=
  ∃ port rest, words (commandPart r.com) = lit "replica" :: r.ip :: port :: rest ∧ atoi port = r.port

theorem Replica.Greets.names {r : Replica} (h : r.Greets) : r.Names := by
  obtain ⟨hclean, port, rest, hws, hport⟩ := h
  exact ⟨port, rest, by rw [commandPart_of_not_mem hclean, hws], hport⟩

/-- A row whose lines greet, with one line for each address, and with a number of lines that an `int`
can hold. -/
structure WellFormedRow (row : List Replica) : Prop where
  greets : ∀ r ∈ row, r.Greets
  nodup : (row.map Replica.peer).Nodup
  length : row.length < 2 ^ 31

/-! ### The messages of a row -/

/-- A node that has added some replicas and has room for as many more. -/
structure Adding (s : Server) (done : List Peer) (room : ℕ) : Prop where
  repnum : s.repnum = done.length
  replicaSock : s.replicaSock = done.map some ++ List.replicate room none
  replicaNum : s.replicaNum = done.length + room + 1

/-- **One line** fills the next socket and is greeted. -/
theorem Adding.step {s : Server} {ss : Session} {done : List Peer} {room : ℕ} {r : Replica} {t : Int}
    {x : Scan} (h : Adding s done (room + 1)) (hr : r.Names)
    (hx : scanAndSend s ss r.com t true = some x) :
    Adding x.server (done ++ [r.peer]) room ∧ x.accept = some r.peer ∧ x.server.w = s.w := by
  obtain ⟨port, rest, hws, hport⟩ := hr
  rw [scanAndSend_replica hws (by rw [h.repnum, h.replicaNum]; omega), hport,
    Option.some.injEq] at hx
  subst hx
  refine ⟨⟨?_, ?_, ?_⟩, rfl, rfl⟩
  · rw [List.length_append, ← h.repnum]
    rfl
  · have hset : s.replicaSock.set s.repnum (some (r.ip, r.port))
        = done.map some ++ some (r.ip, r.port) :: List.replicate room none := by
      rw [h.replicaSock, h.repnum, List.set_append_right _ _ (by simp), List.length_map, Nat.sub_self,
        List.replicate_succ, List.set_cons_zero]
    rw [List.map_append, List.append_assoc]
    exact hset
  · rw [List.length_append, List.length_singleton]
    refine h.replicaNum.trans ?_
    push_cast
    ring

/-- **All lines** fill the sockets in their order. -/
theorem Adding.run {rs : List Replica} (hrs : ∀ r ∈ rs, r.Names) :
    ∀ {s s' : Server} {ss ss' : Session} {done : List Peer} {reqs : List (Str × Int)}
      {greeted : List Peer}, Adding s done rs.length → reqs.map Prod.fst = rs.map Replica.com →
      s.takeAll ss reqs = some (s', ss', greeted) →
      Adding s' (done ++ rs.map Replica.peer) 0 ∧ greeted = rs.map Replica.peer ∧ s'.w = s.w := by
  induction rs with
  | nil =>
    intro s s' ss ss' done reqs greeted h hreqs htake
    obtain rfl := List.map_eq_nil_iff.mp hreqs
    obtain ⟨rfl, hrest⟩ := Prod.mk.inj (Option.some.inj htake)
    obtain ⟨-, rfl⟩ := Prod.mk.inj hrest
    rw [List.map_nil, List.append_nil]
    exact ⟨h, rfl, rfl⟩
  | cons r rs ih =>
    intro s s' ss ss' done reqs greeted h hreqs htake
    match reqs, hreqs with
    | (com, t) :: reqs, hreqs =>
      obtain ⟨hcom, hcoms⟩ := List.cons.inj hreqs
      obtain rfl : com = r.com := hcom
      obtain ⟨x, hx, htake⟩ := Option.bind_eq_some_iff.mp htake
      obtain ⟨y, hy, heq⟩ := Option.map_eq_some_iff.mp htake
      obtain ⟨rfl, hrest⟩ := Prod.mk.inj heq
      obtain ⟨rfl, rfl⟩ := Prod.mk.inj hrest
      obtain ⟨hadd, haccept, hw⟩ := h.step (hrs r (List.mem_cons_self ..)) hx
      obtain ⟨hrun, hgreeted, hw'⟩ := ih (fun r hr => hrs r (List.mem_cons_of_mem _ hr)) hadd hcoms hy
      refine ⟨?_, ?_, hw'.trans hw⟩
      · rwa [List.append_assoc] at hrun
      · rw [hgreeted, haccept]
        rfl

/-- **The messages of a row** behind a line with the number of its replicas give a node a socket for
every other replica. -/
theorem takeAll_coms {row : List Replica} (hrow : ∀ r ∈ row, r.Names) {line arg : Str}
    {rest : List Str} (hline : words (commandPart line) = lit "replicanumber" :: arg :: rest)
    (hatoi : atoi arg = row.length) {j : ℕ} (hj : j < row.length) {s s' : Server} {ss ss' : Session}
    {reqs : List (Str × Int)} {greeted : List Peer}
    (hreqs : reqs.map Prod.fst = line :: (row.eraseIdx j).map Replica.com)
    (htake : s.takeAll ss reqs = some (s', ss', greeted)) :
    s'.replicaNum = row.length ∧ s'.replicaSock = (row.eraseIdx j).map (fun r => some r.peer) ∧
      greeted = (row.eraseIdx j).map Replica.peer ∧ s'.w = s.w := by
  match reqs, hreqs with
  | (com, t) :: reqs, hreqs =>
    obtain ⟨hcom, hcoms⟩ := List.cons.inj hreqs
    obtain rfl : com = line := hcom
    obtain ⟨x, hx, htake⟩ := Option.bind_eq_some_iff.mp htake
    obtain ⟨y, hy, heq⟩ := Option.map_eq_some_iff.mp htake
    obtain ⟨rfl, hrest⟩ := Prod.mk.inj heq
    obtain ⟨rfl, rfl⟩ := Prod.mk.inj hrest
    have hlen : (row.eraseIdx j).length = row.length - 1 := List.length_eraseIdx_of_lt hj
    rw [scanAndSend_replicanumber hline (by rw [hatoi]; omega), hatoi, Option.some.injEq] at hx
    subst hx
    -- `replicanumber` leaves a free cell for each of the messages behind it
    have hadd : Adding { s with
          replicaNum := row.length
          repnum := 0
          replicaCom := List.replicate (((row.length : ℕ) : Int) - 1).toNat []
          replicaIp := List.replicate (((row.length : ℕ) : Int) - 1).toNat []
          replicaPort := List.replicate (((row.length : ℕ) : Int) - 1).toNat 0
          replicaSock := List.replicate (((row.length : ℕ) : Int) - 1).toNat none }
        [] (row.eraseIdx j).length := by
      have hroom : (((row.length : ℕ) : Int) - 1).toNat = row.length - 1 := by omega
      have hnum : ((row.length : ℕ) : Int) = (0 : ℕ) + (row.length - 1 : ℕ) + 1 := by omega
      refine ⟨rfl, ?_, ?_⟩
      · rw [List.map_nil, List.nil_append, hlen, ← hroom]
      · rw [hlen, List.length_nil]
        exact hnum
    obtain ⟨hdone, hgreeted, hw⟩ := hadd.run
      (fun r hr => hrow r (List.mem_of_mem_eraseIdx hr)) hcoms hy
    refine ⟨?_, ?_, hgreeted, hw⟩
    · rw [hdone.replicaNum, List.nil_append, List.length_map, hlen]
      push_cast
      omega
    · rw [hdone.replicaSock, List.nil_append, List.replicate_zero, List.append_nil, List.map_map]
      rfl

/-- The case of the line that `distribute` writes. -/
theorem takeAll_replicaComs {row : List Replica} (hrow : WellFormedRow row) {j : ℕ}
    (hj : j < row.length) {s s' : Server} {ss ss' : Session} {reqs : List (Str × Int)}
    {greeted : List Peer} (hreqs : reqs.map Prod.fst = replicaComs row j)
    (htake : s.takeAll ss reqs = some (s', ss', greeted)) :
    s'.replicaNum = row.length ∧ s'.replicaSock = (row.eraseIdx j).map (fun r => some r.peer) ∧
      greeted = (row.eraseIdx j).map Replica.peer ∧ s'.w = s.w := by
  have hform : lit "replicanumber " ++ toStr row.length
      = lit "replicanumber" ++ byte ' ' :: toStr row.length := by
    rw [show lit "replicanumber " = lit "replicanumber" ++ [byte ' '] from rfl, List.append_assoc,
      List.singleton_append]
  have hclean : backspace ∉ lit "replicanumber " ++ toStr row.length := by
    rw [List.mem_append, not_or]
    exact ⟨by decide, not_mem_toStr (by decide) (by decide) _⟩
  have hline : words (commandPart (lit "replicanumber " ++ toStr row.length))
      = [lit "replicanumber", toStr row.length] := by
    rw [commandPart_of_not_mem hclean, hform, words_append_blank, words_toStr]
    rfl
  have hatoi : atoi (toStr row.length) = row.length :=
    atoi_toStr_self (by omega) (by exact_mod_cast hrow.length)
  exact takeAll_coms (fun r hr => (hrow.greets r hr).names) hline hatoi hj hreqs htake

end Distribute

namespace Group

open Distribute

variable {row : List Replica} {g : Group row.length}

/-- The other nodes, in the order of the row. -/
def others (p : Fin row.length) : List (Fin row.length) :=
  (List.finRange row.length).filter fun q => q ≠ p

theorem mem_others {p q : Fin row.length} : q ∈ others p ↔ q ≠ p := by
  simp [others]

theorem nodup_others (p : Fin row.length) : (others p).Nodup := (List.nodup_finRange _).filter _

/-- The lines of the other nodes. -/
theorem eraseIdx_eq_map_others (p : Fin row.length) :
    row.eraseIdx p = (others p).map row.get := by
  have hfilter : (List.finRange row.length).eraseIdx p = others p := by
    have herase := (List.nodup_finRange row.length).erase_getElem p (by simp)
    rw [List.getElem_finRange, Fin.cast_mk, (List.nodup_finRange row.length).erase_eq_filter p] at herase
    rw [← herase, others]
    exact List.filter_congr fun q _ => by simp [bne, beq_eq_decide]
  calc row.eraseIdx p = ((List.finRange row.length).map row.get).eraseIdx p := by
        rw [List.map_get_finRange]
    _ = (others p).map row.get := by rw [List.eraseIdx_map, hfilter]

/-- The sockets of a node. -/
def socks (p : Fin row.length) : List (Option Peer) := (others p).map fun q => some (addr row q)

/-- The node at an address is the one with that line. -/
theorem find_peer (hrow : (row.map Replica.peer).Nodup) (q : Fin row.length) :
    find row (addr row q) = some q := by
  cases hf : find row (addr row q) with
  | none =>
    have hnone := List.find?_eq_none.mp hf q (List.mem_finRange q)
    simp at hnone
  | some q' =>
    have hpeer : addr row q' = addr row q := by simpa using List.find?_some hf
    have hline : row[q'] = row[q] := List.inj_on_of_nodup_map hrow (List.getElem_mem _)
      (List.getElem_mem _) hpeer
    rw [Fin.ext (hrow.of_map.getElem_inj_iff.mp hline)]

/-- A node of a group that is built. -/
structure Member (row : List Replica) (s : Server) (p : Fin row.length) : Prop where
  replicaNum : s.replicaNum = row.length
  replicaSock : s.replicaSock = socks p
  startNum : s.w.h.startNum = 0
  endNum : s.w.h.endNum = totalSlotNum - 1

/-- **A group that is built**: its nodes are members with empty tables, and no session between them
sends on what it receives. -/
theorem Built.spec (hrow : WellFormedRow row) (h : Built row g) :
    (∀ p, Member row (g.servers p) p ∧ ∀ k, (g.servers p).w.h.findNode k = none) ∧
      (∀ p q, q ≠ p → g.links p q = { auth := 0, autoSendYes := false }) ∧ g.tasks = [] := by
  refine ⟨fun p => ?_, fun p q hq => ?_, h.tasks⟩
  · obtain ⟨s, ss, ss', reqs, greeted, ⟨⟨port, hnew⟩, -, -⟩, hreqs, htake, -⟩ := h.servers p
    obtain ⟨hnum, hsock, -, hw⟩ := takeAll_replicaComs hrow p.isLt hreqs htake
    have hh : (g.servers p).w.h = Hash.new port := by rw [hw, hnew]
    refine ⟨⟨hnum, ?_, by rw [hh]; rfl, by rw [hh]; rfl⟩, fun k => by rw [hh, Hash.findNode_new]⟩
    rw [hsock, eraseIdx_eq_map_others, List.map_map]
    rfl
  · obtain ⟨s, ss, ss', reqs, greeted, -, hreqs, htake, hlinks⟩ := h.servers p
    obtain ⟨-, -, hgreeted, -⟩ := takeAll_replicaComs hrow p.isLt hreqs htake
    have hmem : addr row q ∈ greeted := by
      rw [hgreeted, eraseIdx_eq_map_others, List.map_map]
      exact List.mem_map_of_mem (mem_others.mpr hq)
    obtain ⟨s', t, connected, x, hx, hlink⟩ := hlinks q hmem
    rw [scanAndSend_replicaaccept] at hx
    obtain rfl := Option.some.inj hx
    rw [hlink]

/-! ### Two replicas -/

/-- The row of two replicas. -/
def pairRow : List Replica :=
  [⟨lit "10.0.0.1", 5001, lit "replica 10.0.0.1 5001"⟩,
    ⟨lit "10.0.0.2", 5002, lit "replica 10.0.0.2 5002"⟩]

def first : Fin pairRow.length := ⟨0, by decide⟩

def second : Fin pairRow.length := ⟨1, by decide⟩

theorem eq_first_or_second (p : Fin pairRow.length) : p = first ∨ p = second := by
  have hlt : (p : ℕ) < 2 := p.isLt
  rcases (by omega : (p : ℕ) = 0 ∨ (p : ℕ) = 1) with h | h
  · exact Or.inl (Fin.ext h)
  · exact Or.inr (Fin.ext h)

/-- One of two replicas, with the line of the other one. -/
def pairServer (port : Int) (r : Replica) : Server :=
  { w := World.fresh port
    replicaNum := 2
    repnum := 1
    replicaCom := [r.com]
    replicaIp := [r.ip]
    replicaPort := [r.port]
    replicaSock := [some r.peer] }

/-- Two replicas as they are built. -/
def pair : Group pairRow.length where
  servers p := if p = first then pairServer 5001 pairRow[1] else pairServer 5002 pairRow[0]
  links _ _ := { autoSendYes := false }
  tasks := []

end Group

end MuseKv
