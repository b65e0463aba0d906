import MuseKv.Cluster.Equiv.Coverage
import MuseKv.Cluster.FailOver
import MuseKv.Server.Equiv.Framing

/-!
# The authority of a command on its way

A node that sends a command on appends the authority of its own session, also when the command came
with a suffix.  So the first node passes the authority of the client on, and any later one the
authority `0` of the connection between two servers (`Chain.auth_eq`).  The suffix stands at the end of
the text, and a text of 1024 bytes and more loses some of it, or is read on behind it
(`exists_authority_ne`).
-/

namespace MuseKv

open Kvstore Command Distribute

variable {ss₀ ss ss' : Session} {com c : Str} {text : Str → Str} {n : ℕ} {a : Int}

/-! ### A text that is sent on -/

theorem length_forwarded (ss : Session) (com : Str) :
    (forwarded ss com).length = com.length + 3 + (toStr ss.auth).length := by
  simp [forwarded, lit]
  omega

theorem nul_not_mem_forwarded (ss : Session) (h : (0 : UInt8) ∉ com) :
    (0 : UInt8) ∉ forwarded ss com := by
  have hauth : (0 : UInt8) ∉ toStr ss.auth := not_mem_toStr (by decide) (by decide) _
  simp only [forwarded, List.mem_append, List.mem_cons, not_or]
  exact ⟨⟨⟨h, by decide⟩, by decide, by decide⟩, hauth⟩

/-- The buffer holds what `recv` took, and what stands behind it if it is full. -/
theorem take_prefix_received {msg : Str} (h : (0 : UInt8) ∉ msg) (memory : Str) :
    msg.take 1024 <+: received memory (msg.take 1024) := by
  have hnul : (0 : UInt8) ∉ msg.take 1024 := fun hmem => h (List.mem_of_mem_take hmem)
  by_cases hlen : (msg.take 1024).length < 1024
  · rw [received_short hnul hlen]
  · rw [received_long hnul hlen]
    exact List.prefix_append _ _

/-- The command of a text is at least what stands in front of its backspace. -/
theorem length_le_commandPart {p s : Str} (hp : backspace ∉ p) (h : p <+: s) :
    p.length ≤ (commandPart s).length := by
  obtain ⟨q, rfl⟩ := h
  rw [commandPart, List.takeWhile_append_of_pos (ne_backspace hp), List.length_append]
  exact Nat.le_add_right _ _

/-- A text that is shorter than the buffer arrives whole. -/
theorem received_forwarded (hnul : (0 : UInt8) ∉ c) (hlen : (forwarded ss c).length < 1024)
    (memory : Str) : received memory ((forwarded ss c).take 1024) = forwarded ss c := by
  rw [List.take_of_length_le (Nat.le_of_lt hlen), received_short (nul_not_mem_forwarded ss hnul) hlen]

/-- A digit behind a suffix, or behind a part of it, is taken for one of its digits. -/
theorem atoi_take_append (x : Fin 256) (k : ℕ) :
    atoi ((byte ' ' :: toStr (x : ℕ)).take k ++ lit "1") ≠ atoi ((byte ' ' :: toStr (x : ℕ)).take k) := by
  have hshort : ∀ x : Fin 256, (byte ' ' :: toStr (x : ℕ)).length ≤ 4 := by decide +kernel
  have hall : ∀ (x : Fin 256) (k : Fin 5), atoi ((byte ' ' :: toStr (x : ℕ)).take k ++ lit "1")
      ≠ atoi ((byte ' ' :: toStr (x : ℕ)).take k) := by decide +kernel
  by_cases hk : k < 5
  · exact hall x ⟨k, hk⟩
  · have hfour := hall x 4
    have hfit : (byte ' ' :: toStr (x : ℕ)).length ≤ ((4 : Fin 5) : ℕ) := hshort x
    rw [List.take_of_length_le hfit] at hfour
    rwa [List.take_of_length_le ((hshort x).trans (by omega))]

/-- A buffer that ends in the suffix: the rest of the digits is read behind it. -/
theorem authority_cut_suffix (ss : Session) (hc : backspace ∉ c)
    (hmem : backspace ∈ (forwarded ss' c).take 1024) : ∃ k, ∀ m,
    authority ss ((forwarded ss' c).take 1024 ++ m) = atoi ((byte ' ' :: toStr ss'.auth).take k ++ m) := by
  have hfront : (c ++ [byte ' ']).length < 1024 := by
    by_contra hlong
    rw [forwarded_split, List.take_append_of_le_length (by omega)] at hmem
    exact backspace_not_mem_append_blank hc (List.mem_of_mem_take hmem)
  refine ⟨1024 - (c ++ [byte ' ']).length - 1, fun m => ?_⟩
  rw [forwarded_split, List.take_append, List.take_of_length_le (Nat.le_of_lt hfront),
    List.take_cons (by omega), List.append_assoc, List.cons_append,
    authority_append_cons _ (backspace_not_mem_append_blank hc)]

/-- Two contents of the memory behind a full buffer give two authorities. -/
theorem exists_authority_append_ne (hlink : ss.auth = 0) (hc : backspace ∉ c)
    (h₀ : 0 ≤ ss'.auth) (h₁ : ss'.auth ≤ 255) :
    ∃ m₁ m₂, authority ss ((forwarded ss' c).take 1024 ++ cString m₁)
      ≠ authority ss ((forwarded ss' c).take 1024 ++ cString m₂) := by
  have hnil : cString [] = [] := rfl
  by_cases hmem : backspace ∈ (forwarded ss' c).take 1024
  · -- the buffer ends in the suffix
    obtain ⟨k, hk⟩ := authority_cut_suffix ss hc hmem
    obtain ⟨x, hx⟩ : ∃ x : Fin 256, ss'.auth = (x : ℕ) := ⟨⟨ss'.auth.toNat, by omega⟩, by simp [h₀]⟩
    have hone : cString (lit "1") = lit "1" := by decide
    refine ⟨lit "1", [], ?_⟩
    rw [hk, hk, hone, hnil, List.append_nil, hx]
    exact atoi_take_append x k
  · -- the suffix is cut off
    have hone : cString (backspace :: lit "1") = backspace :: lit "1" := by decide
    refine ⟨backspace :: lit "1", [], ?_⟩
    rw [hone, authority_append_cons _ hmem, hnil, List.append_nil, authority, if_neg hmem, hlink]
    decide

/-- **A text of 1024 bytes and more** has no authority of its own: what it runs with hangs on what stands
behind the buffer. -/
theorem exists_authority_ne (hlink : ss.auth = 0) (hc : backspace ∉ c) (hnul : (0 : UInt8) ∉ c)
    (h₀ : 0 ≤ ss'.auth) (h₁ : ss'.auth ≤ 255) (hlen : ¬(forwarded ss' c).length < 1024) :
    ∃ memory, authority ss (received memory ((forwarded ss' c).take 1024)) ≠ a := by
  have hmsg : (0 : UInt8) ∉ (forwarded ss' c).take 1024 := fun h =>
    nul_not_mem_forwarded ss' hnul (List.mem_of_mem_take h)
  have hfull : ¬((forwarded ss' c).take 1024).length < 1024 := by
    rw [List.length_take]
    omega
  obtain ⟨m₁, m₂, hne⟩ := exists_authority_append_ne hlink hc h₀ h₁
  simp only [received_long hmsg hfull]
  by_contra hall
  push Not at hall
  exact hne ((hall m₁).trans (hall m₂).symm)

/-! ### The steps of a chain -/

/-- What the last node of a chain received. -/
theorem Chain.pred (h : Chain ss₀ com (n + 1) ss text) :
    ∃ (ss' : Session) (text' : Str → Str) (memory : Str), Chain ss₀ com n ss' text' ∧ ss.auth = 0 ∧
      text = fun m => received m ((forwarded ss' (commandPart (text' memory))).take 1024) := by
  cases h with
  | @sent _ ss' _ text' h memory _ _ _ _ _ _ _ _ hscan hsend _ hlink =>
    exact ⟨ss', text', memory, h, hlink, by rw [eq_forwarded_of_peer hscan hsend]⟩

theorem Chain.auth_eq (h : Chain ss₀ com n ss text) : ss.auth = if n = 0 then ss₀.auth else 0 := by
  cases h with
  | client => rfl
  | sent _ _ _ _ hlink => rw [hlink, if_neg (Nat.succ_ne_zero _)]

theorem Chain.auth_bounds (h₀ : 0 ≤ ss₀.auth) (h₁ : ss₀.auth ≤ 255) (h : Chain ss₀ com n ss text) :
    0 ≤ ss.auth ∧ ss.auth ≤ 255 := by
  rw [h.auth_eq]
  split_ifs
  · exact ⟨h₀, h₁⟩
  · omega

theorem Chain.nul_not_mem (hnul : (0 : UInt8) ∉ com) (h : Chain ss₀ com n ss text) (memory : Str) :
    (0 : UInt8) ∉ commandPart (text memory) := by
  intro hmem
  have htext := (List.takeWhile_prefix _).subset hmem
  cases h with
  | client => exact hnul htext
  | sent => exact not_mem_cString _ htext

/-- A command grows by a blank at each step, up to the end of the buffer. -/
theorem Chain.le_length (hcom : backspace ∉ com) (hnul : (0 : UInt8) ∉ com)
    (h : Chain ss₀ com n ss text) (memory : Str) :
    min 1024 (com.length + n) ≤ (commandPart (text memory)).length := by
  induction n generalizing ss text memory with
  | zero =>
    cases h with
    | client =>
      rw [commandPart_of_not_mem hcom]
      exact min_le_right _ _
  | succ n ih =>
    obtain ⟨ss', text', m, h', -, rfl⟩ := h.pred
    have hmsg := nul_not_mem_forwarded ss' (h'.nul_not_mem hnul m)
    have hfront : (commandPart (text' m) ++ [byte ' ']).take 1024 <+:
        (forwarded ss' (commandPart (text' m))).take 1024 := by
      rw [forwarded_split]
      exact (List.prefix_append _ _).take 1024
    have hclean : backspace ∉ (commandPart (text' m) ++ [byte ' ']).take 1024 := fun hmem =>
      backspace_not_mem_append_blank not_mem_commandPart (List.mem_of_mem_take hmem)
    have hle := length_le_commandPart hclean (hfront.trans (take_prefix_received hmsg memory))
    have hprev := ih h' m
    dsimp only
    rw [List.length_take, List.length_append, List.length_singleton] at hle
    omega

/-- **As long as every text arrives whole**, the words are those of the command, and it grows by a blank
at each step. -/
theorem Chain.words_eq (hcom : backspace ∉ com) (hnul : (0 : UInt8) ∉ com) (hss : ss₀.auth = a)
    (hpass : n ≤ 1 ∨ a = 0) (hlen : n = 0 ∨ com.length + n + 2 + (toStr a).length < 1024)
    (h : Chain ss₀ com n ss text) (memory : Str) :
    words (commandPart (text memory)) = words com ∧
      (commandPart (text memory)).length = com.length + n := by
  subst hss
  induction n generalizing ss text memory with
  | zero =>
    cases h with
    | client => exact ⟨congrArg words (commandPart_of_not_mem hcom), by rw [commandPart_of_not_mem hcom]; rfl⟩
  | succ n ih =>
    have hlen := hlen.resolve_left (Nat.succ_ne_zero n)
    obtain ⟨ss', text', m, h', -, rfl⟩ := h.pred
    obtain ⟨hws, hprev⟩ := ih h' m (by omega) (Or.inr (by omega))
    have hauth : ss'.auth = ss₀.auth := by
      rw [h'.auth_eq]
      split_ifs with hn
      · rfl
      · omega
    have hwhole : (forwarded ss' (commandPart (text' m))).length < 1024 := by
      rw [length_forwarded, hprev, hauth]
      omega
    simp only [received_forwarded (h'.nul_not_mem hnul m) hwhole]
    refine ⟨(words_commandPart_forwarded not_mem_commandPart).trans hws, ?_⟩
    rw [commandPart_forwarded not_mem_commandPart, List.length_append, hprev, List.length_singleton]
    omega

/-- What a text that arrives whole runs as. -/
theorem runsAs_received (hc : backspace ∉ c) (hnul : (0 : UInt8) ∉ c)
    (hauth : -2 ^ 31 ≤ ss'.auth ∧ ss'.auth < 2 ^ 31) (hwhole : (forwarded ss' c).length < 1024) :
    RunsAs com a ss (fun memory => received memory ((forwarded ss' c).take 1024)) ↔
      words c = words com ∧ ss'.auth = a := by
  simp only [RunsAs, received_forwarded hnul hwhole, forall_const, words_commandPart_forwarded hc,
    authority_forwarded hc hauth]

/-- **A command runs with the words and the authority of its client if and only if** it is executed where
the client sent it, or it arrived whole and was sent on just once, or with the authority `0`. -/
theorem runsAs_iff (hcom : backspace ∉ com) (hnul : (0 : UInt8) ∉ com) (hss : ss₀.auth = a)
    (h₀ : 0 ≤ a) (h₁ : a ≤ 255) (h : Chain ss₀ com n ss text) :
    RunsAs com a ss text ↔
      n = 0 ∨ (n = 1 ∨ a = 0) ∧ com.length + n + 2 + (toStr a).length < 1024 := by
  cases n with
  | zero =>
    cases h with
    | client =>
      refine iff_of_true (fun _ => ⟨congrArg words (commandPart_of_not_mem hcom), ?_⟩) (Or.inl rfl)
      rw [authority, if_neg hcom, hss]
  | succ n =>
    obtain ⟨ss', text', m, h', hlink, rfl⟩ := h.pred
    obtain ⟨h₀', h₁'⟩ := h'.auth_bounds (hss ▸ h₀) (hss ▸ h₁)
    have hauth := h'.auth_eq
    have hnul' := h'.nul_not_mem hnul m
    -- a chain that passes the authority on has its words, and its text the length that is tested
    have hgood : (n + 1 = 1 ∨ a = 0) → com.length + n + 2 + (toStr a).length < 1024 →
        ss'.auth = a ∧ words (commandPart (text' m)) = words com ∧
          (commandPart (text' m)).length = com.length + n := by
      intro hpass hfit
      refine ⟨?_, h'.words_eq hcom hnul hss (by omega) (Or.inr hfit) m⟩
      rw [hauth, hss]
      split_ifs <;> omega
    rw [or_iff_right (Nat.succ_ne_zero n)]
    by_cases hwhole : (forwarded ss' (commandPart (text' m))).length < 1024
    · have hruns := @runsAs_received ss ss' com _ a not_mem_commandPart hnul' (by omega) hwhole
      have hle := h'.le_length hcom hnul m
      have hpos : 0 < (toStr ss'.auth).length := List.length_pos_of_ne_nil (toStr_ne_nil _)
      rw [length_forwarded] at hwhole
      rw [hruns]
      constructor
      · rintro ⟨-, rfl⟩
        rw [hss] at hauth
        refine ⟨?_, by omega⟩
        split_ifs at hauth <;> omega
      · rintro ⟨hpass, hfit⟩
        obtain ⟨hsame, hws, -⟩ := hgood hpass (by omega)
        exact ⟨hws, hsame⟩
    · refine iff_of_false (fun hruns => ?_) fun hpass => ?_
      · obtain ⟨memory, hne⟩ := exists_authority_ne (a := a) hlink not_mem_commandPart hnul' h₀' h₁' hwhole
        exact hne (hruns memory).2
      · obtain ⟨hpass, hfit⟩ := hpass
        obtain ⟨hsame, -, hprev⟩ := hgood hpass (by omega)
        rw [length_forwarded, hprev, hsame] at hwhole
        omega

/-- The first node of the cluster of two, with a replica that has the same share. -/
def withReplica : Server :=
  { twoNodes [] 0 with
    replicaNum := 2
    replicaSock := [some (lit "10.0.0.3", 5003)] }

/-- The owner gets the command from the node of the client. -/
theorem runsAs_sent : ∃ ss text, Chain { auth := 5 } (lit "make k v") 1 ss text ∧
    RunsAs (lit "make k v") 5 ss text := by
  obtain ⟨y, index, msg, hscan, hsend, hpeer⟩ : ∃ y index msg,
      scanAndSend withReplica { auth := 5 } (lit "make k v") 0 true = some y ∧
        y.send = .peer index msg ∧
        y.server.receiver (fun _ => .arrives) index = some (some (lit "10.0.0.2", 5002)) :=
    ⟨_, _, _, rfl, rfl, rfl⟩
  have hchain := @Chain.sent { auth := 5 } (lit "make k v") _ _ {} _ .client [] _ _ _ _ _ _ _ _ hscan
    hsend hpeer rfl
  exact ⟨{}, _, hchain, (runsAs_iff (by decide) (by decide) rfl (by decide) (by decide) hchain).mpr
    (Or.inr ⟨Or.inl rfl, by decide⟩)⟩

/-- **The fail-over loses the authority.**  A client of authority `5` sends `make k v` to a node that
does not own `k`.  The owner is not reached from there, and a replica that gets `make k v \b 5` sends
the command to the owner with the authority `0` of its own session. -/
theorem not_runsAs_failOver :
    (∃ ss text, Chain { auth := 5 } (lit "make k v") 2 ss text ∧ ∀ m, authority ss (text m) = 0) ∧
      ¬ ∀ (ss₀ ss : Session) (com : Str) (text : Str → Str) (n : ℕ) (a : Int), backspace ∉ com →
        (0 : UInt8) ∉ com → ss₀.auth = a → 0 ≤ a → a ≤ 255 → Chain ss₀ com n ss text →
        RunsAs com a ss text := by
  -- the text that the replica gets, and the one that the owner gets
  let msg := forwarded { auth := 5 } (lit "make k v")
  let msg' := forwarded {} (commandPart msg)
  obtain ⟨y, index, hscan, hsend, hpeer⟩ : ∃ y index,
      scanAndSend withReplica { auth := 5 } (lit "make k v") 0 true = some y ∧
        y.send = .peer index msg ∧
        y.server.receiver (fun sock => if sock = some (lit "10.0.0.3", 5003) then .arrives else .fails)
          index = some (some (lit "10.0.0.3", 5003)) := ⟨_, _, rfl, rfl, rfl⟩
  obtain ⟨y', index', hscan', hsend', hpeer'⟩ : ∃ y' index',
      scanAndSend (twoNodes [] 0) {} (received [] (msg.take 1024)) 0 true = some y' ∧
        y'.send = .peer index' msg' ∧
        y'.server.receiver (fun _ => .arrives) index' = some (some (lit "10.0.0.2", 5002)) :=
    ⟨_, _, rfl, rfl, rfl⟩
  have hfirst := @Chain.sent { auth := 5 } (lit "make k v") _ _ {} _ .client [] _ _ _ _ _ _ _ _ hscan
    hsend hpeer rfl
  have hchain := @Chain.sent _ _ _ _ {} _ hfirst [] _ _ _ _ _ _ _ _ hscan' hsend' hpeer' rfl
  have hauth : ∀ m, authority {} (received m (msg'.take 1024)) = 0 := by
    intro m
    rw [received_forwarded (by decide) (by decide)]
    rfl
  refine ⟨⟨{}, _, hchain, hauth⟩, fun h => ?_⟩
  have hruns := (h _ _ _ _ _ 5 (by decide) (by decide) rfl (by decide) (by decide) hchain []).2
  rw [hauth] at hruns
  exact absurd hruns (by decide)

end MuseKv
