import MuseKv.Server.Equiv.Route

/-!
# A forwarded write is classified with its suffix

`scan_and_send` classifies the text it received and executes the text in front of the suffix.  The
suffix adds two words, so a command whose number of words matters is no longer a `Write` when a peer
forwards it: it is executed, but neither logged nor sent to the replicas.  `commandType_forwarded`
lists the commands that stay a `Write`, and **`recordedAlike_iff`** says when the two ways agree.
-/

namespace MuseKv

open Kvstore Command

/-! ### The parts of a text -/

theorem ne_backspace {p : Str} (h : backspace ∉ p) : ∀ c ∈ p, decide (c ≠ backspace) = true :=
  fun _ hc => decide_eq_true fun heq => h (heq ▸ hc)

theorem commandPart_append_cons {p : Str} (h : backspace ∉ p) (q : Str) :
    commandPart (p ++ backspace :: q) = p := by
  rw [commandPart, List.takeWhile_append_of_pos (ne_backspace h)]
  simp

theorem suffixPart_append_cons {p : Str} (h : backspace ∉ p) (q : Str) :
    suffixPart (p ++ backspace :: q) = q := by
  rw [suffixPart, List.dropWhile_append_of_pos (ne_backspace h)]
  simp

/-- What stands behind the backspace is read as the authority. -/
theorem authority_append_cons (ss : Session) {p : Str} (h : backspace ∉ p) (q : Str) :
    authority ss (p ++ backspace :: q) = atoi q := by
  rw [authority, if_pos (List.mem_append_right _ (List.mem_cons_self ..)), suffixPart_append_cons h]

/-! ### The words of a forwarded command -/

theorem forwarded_eq (ss : Session) (com : Str) :
    forwarded ss com = com ++ byte ' ' :: ([backspace] ++ byte ' ' :: toStr ss.auth) := by
  simp [forwarded, lit]

theorem words_forwarded (ss : Session) (com : Str) :
    words (forwarded ss com) = words com ++ [[backspace], toStr ss.auth] := by
  rw [forwarded_eq, words_append_blank, words_append_blank, words_toStr,
    words_eq_singleton (w := [backspace]) (by simp) (List.forall_mem_singleton.mpr (by decide))]
  rfl

theorem forwarded_split (ss : Session) (com : Str) :
    forwarded ss com = (com ++ [byte ' ']) ++ backspace :: byte ' ' :: toStr ss.auth := by
  simp [forwarded, lit]

theorem backspace_not_mem_append_blank {com : Str} (h : backspace ∉ com) :
    backspace ∉ com ++ [byte ' '] := by
  rw [List.mem_append, not_or]
  exact ⟨h, by decide⟩

theorem commandPart_forwarded {ss : Session} {com : Str} (h : backspace ∉ com) :
    commandPart (forwarded ss com) = com ++ [byte ' '] := by
  rw [forwarded_split, commandPart_append_cons (backspace_not_mem_append_blank h)]

theorem not_mem_commandPart {com : Str} : backspace ∉ commandPart com := by
  intro h
  have hne := List.mem_takeWhile_imp (p := fun c => decide (c ≠ backspace)) h
  exact of_decide_eq_true hne rfl

theorem commandPart_of_not_mem {com : Str} (h : backspace ∉ com) : commandPart com = com :=
  List.takeWhile_eq_self_iff.mpr fun _ hc => decide_eq_true fun heq => h (heq ▸ hc)

/-- **A suffix carries the authority of the session that sent it.** -/
theorem authority_forwarded {ss ss' : Session} {com : Str} (h : backspace ∉ com)
    (hauth : -2 ^ 31 ≤ ss.auth ∧ ss.auth < 2 ^ 31) : authority ss' (forwarded ss com) = ss.auth := by
  have hatoi := atoi_toStr (x := ss.auth) (b := [byte ' ']) (t := []) hauth.1 hauth.2
    (List.forall_mem_singleton.mpr (by decide)) (by simp)
  rw [forwarded_split, authority_append_cons _ (backspace_not_mem_append_blank h)]
  rwa [List.append_nil] at hatoi

/-- The command in front of the suffix has the words of the command itself. -/
theorem words_commandPart_forwarded {ss : Session} {com : Str} (h : backspace ∉ com) :
    words (commandPart (forwarded ss com)) = words com := by
  rw [commandPart_forwarded h, words_append_blank, words_nil, List.append_nil]

/-! ### The classification -/

namespace Command

/-- Only the rows of its own word matter for a look-up. -/
theorem lookup_filter {α : Type} (table : List (Str × Arity × α)) (word : Str) (n : ℕ) :
    lookup table word n = ((table.filter fun row => row.1 = word).find? fun row =>
      row.2.1.holds n).map fun row => row.2.2 := by
  rw [lookup, List.find?_filter]
  simp only [Bool.decide_and, Bool.decide_eq_true]

theorem commandType_cons {com word : Str} {args : List Str} (h : words com = word :: args) :
    commandType com = (lookup typeTable word (args.length + 1)).getD .invalid := by
  rw [commandType, h]

theorem lookup_of_write {com word : Str} {args : List Str} (hws : words com = word :: args)
    (h : commandType com = .write) : lookup typeTable word (args.length + 1) = some .write := by
  rw [commandType_cons hws] at h
  cases hl : lookup typeTable word (args.length + 1) with
  | none =>
    rw [hl] at h
    exact absurd h (by decide)
  | some ct =>
    rw [hl] at h
    exact congrArg some h

/-- A `Write` is no control word. -/
theorem not_control_of_write {com : Str} (h : commandType com = .write) :
    ∀ word ∈ (words com).head?, word ∉ controlWords := by
  have hall : ∀ row ∈ typeTable, row.1 ∉ controlWords := by decide
  intro word hword
  cases hws : words com with
  | nil =>
    rw [hws] at hword
    exact absurd hword (by simp)
  | cons word' args =>
    obtain rfl : word' = word := by simpa [hws] using hword
    obtain ⟨arity, hmem, -⟩ := lookup_eq_some (lookup_of_write hws h)
    exact hall _ hmem

/-- The row of a word that has no other. -/
theorem lookup_atLeast {α : Type} {table : List (Str × Arity × α)} {word : Str} {m n : ℕ} {x : α}
    (hrow : (table.filter fun row => row.1 = word) = [(word, .atLeast m, x)]) (hn : m ≤ n) :
    lookup table word n = some x := by
  rw [lookup_filter, hrow]
  simp [Arity.holds, hn]

/-- The commands with an open-ended list of arguments. -/
def openWords : List Str :=
  [lit "lmake", lit "lpush", lit "rpush", lit "smake", lit "spush", lit "hmake"]

/-- **Two more words keep a `Write` only if the command has room for them.** -/
theorem lookup_add_two {word : Str} {n : ℕ} (h : lookup typeTable word n = some .write) :
    lookup typeTable word (n + 2) = some .write ↔
      word ∈ openWords ∨ (word = lit "make" ∧ n = 3) := by
  obtain ⟨arity, hmem, harity⟩ := lookup_eq_some h
  have hwrites : (typeTable.filter fun row => row.2.2 = .write) =
      [(lit "make", .exactly 3, .write), (lit "make", .exactly 4, .write),
        (lit "make", .exactly 5, .write), (lit "del", .exactly 2, .write),
        (lit "lmake", .atLeast 3, .write), (lit "lpush", .atLeast 3, .write),
        (lit "rpush", .atLeast 3, .write), (lit "lpop", .exactly 2, .write),
        (lit "rpop", .exactly 2, .write), (lit "lset", .exactly 4, .write),
        (lit "lerase", .exactly 3, .write), (lit "smake", .atLeast 3, .write),
        (lit "spush", .atLeast 3, .write), (lit "spop", .exactly 2, .write),
        (lit "serase", .exactly 3, .write), (lit "hmake", .atLeast 4, .write),
        (lit "hpush", .exactly 4, .write), (lit "herase", .exactly 3, .write),
        (lit "authr", .exactly 3, .write), (lit "authw", .exactly 3, .write),
        (lit "expire", .exactly 3, .write), (lit "read", .exactly 2, .write)] := rfl
  have hexact : ∀ {word : Str} {m : ℕ}, (Arity.exactly m).holds n = true →
      (lookup typeTable word (m + 2) = some .write ↔
        word ∈ openWords ∨ (word = lit "make" ∧ m = 3)) →
      (lookup typeTable word (n + 2) = some .write ↔
        word ∈ openWords ∨ (word = lit "make" ∧ n = 3)) := by
    intro word m hm hiff
    obtain rfl : n = m := by simpa [Arity.holds] using hm
    exact hiff
  have hopen : ∀ {word : Str} {m : ℕ}, (Arity.atLeast m).holds n = true → word ∈ openWords →
      (typeTable.filter fun row => row.1 = word) = [(word, .atLeast m, .write)] →
      (lookup typeTable word (n + 2) = some .write ↔
        word ∈ openWords ∨ (word = lit "make" ∧ n = 3)) := by
    intro word m hm hword hrow
    have hle : m ≤ n := by simpa [Arity.holds] using hm
    exact iff_of_true (lookup_atLeast hrow (by omega)) (Or.inl hword)
  -- each row of the table for a `Write` has one of the two arities
  have hmem' : (word, arity, ComType.write) ∈ typeTable.filter fun row => row.2.2 = .write :=
    List.mem_filter.mpr ⟨hmem, decide_eq_true rfl⟩
  rw [hwrites] at hmem'
  simp only [List.mem_cons, List.not_mem_nil, or_false, Prod.mk.injEq, and_true] at hmem'
  rcases hmem' with ⟨rfl, rfl⟩ | ⟨rfl, rfl⟩ | ⟨rfl, rfl⟩ | ⟨rfl, rfl⟩ | ⟨rfl, rfl⟩ | ⟨rfl, rfl⟩ |
    ⟨rfl, rfl⟩ | ⟨rfl, rfl⟩ | ⟨rfl, rfl⟩ | ⟨rfl, rfl⟩ | ⟨rfl, rfl⟩ | ⟨rfl, rfl⟩ | ⟨rfl, rfl⟩ |
    ⟨rfl, rfl⟩ | ⟨rfl, rfl⟩ | ⟨rfl, rfl⟩ | ⟨rfl, rfl⟩ | ⟨rfl, rfl⟩ | ⟨rfl, rfl⟩ | ⟨rfl, rfl⟩ |
    ⟨rfl, rfl⟩ | ⟨rfl, rfl⟩
  all_goals first
    | exact hexact harity (by decide)
    | exact hopen harity (by decide) rfl

/-- The commands that are still a `Write` with two more words. -/
def StaysWrite (ws : List Str) : Prop :=
  ∃ word, ws.head? = some word ∧ (word ∈ openWords ∨ (word = lit "make" ∧ ws.length = 3))

/-- **A `Write` stays a `Write` with a suffix** just when it is one of these. -/
theorem commandType_forwarded {ss : Session} {com : Str} (h : commandType com = .write) :
    commandType (forwarded ss com) = .write ↔ StaysWrite (words com) := by
  cases hws : words com with
  | nil =>
    rw [commandType, hws] at h
    exact absurd h (by decide)
  | cons word args =>
    have hfwd := words_forwarded ss com
    rw [hws, List.cons_append] at hfwd
    have hlook := lookup_of_write hws h
    rw [commandType_cons hfwd, List.length_append, StaysWrite]
    simp only [List.length_cons, List.length_nil, List.head?_cons, Option.some.injEq, exists_eq_left']
    rw [← lookup_add_two hlook]
    have hlen : args.length + (0 + 1 + 1) + 1 = args.length + 1 + 2 := by omega
    rw [hlen]
    cases lookup typeTable word (args.length + 1 + 2) with
    | none => simp
    | some ct => simp

end Command

/-! ### Logging and replication -/

/-- The log append was started. -/
def Logs (x : Option Scan) : Prop := ∃ y, x = some y ∧ y.log ≠ none

/-- The sends to the replicas were started. -/
def Replicates (x : Option Scan) : Prop := ∃ y, x = some y ∧ y.autoSend ≠ none

/-- Two ways of a command that are recorded alike. -/
def RecordedAlike (x x' : Option Scan) : Prop := (Logs x ↔ Logs x') ∧ (Replicates x ↔ Replicates x')

/-- A marked reply keeps its command out of the log and from the replicas. -/
theorem route_marked {s : Server} {ss : Session} {com msg : Str} {connected : Bool} {y : Scan}
    (hm : Marked msg) (h : route s ss com connected msg = some y) :
    y.log = none ∧ y.autoSend = none := by
  rcases hm with hhash | ⟨word, hword, rfl⟩
  · rw [route_ask hhash] at h
    obtain ⟨send, -, rfl⟩ := Option.map_eq_some_iff.mp h
    exact ⟨rfl, rfl⟩
  · obtain ⟨hlog, hsend, -⟩ := route_control hword h
    exact ⟨hlog, hsend⟩

/-- A `Write` that is not marked is recorded as its text is classified. -/
theorem recorded_route {s : Server} {ss : Session} {com msg : Str} {connected : Bool}
    (hss : ss.autoSendYes = true) (hm : ¬ Marked msg) :
    (Logs (route s ss com connected msg) ↔ commandType com = .write) ∧
      (Replicates (route s ss com connected msg) ↔
        commandType com = .write ∧ s.replicaNum ≠ 0) := by
  rw [route_client hm]
  constructor
  · by_cases h : commandType com = .write <;> simp [Logs, h]
  · by_cases h : commandType com = .write
    · by_cases hn : s.replicaNum = 0 <;> simp [Replicates, h, hss, hn]
    · simp [Replicates, h]

theorem not_recorded_of_marked {s : Server} {ss : Session} {com msg : Str} {connected : Bool}
    (hm : Marked msg) :
    ¬ Logs (route s ss com connected msg) ∧ ¬ Replicates (route s ss com connected msg) := by
  constructor
  · rintro ⟨y, hy, hlog⟩
    exact hlog (route_marked hm hy).1
  · rintro ⟨y, hy, hsend⟩
    exact hsend (route_marked hm hy).2

/-- **A write is recorded alike on both ways if and only if** it stays a `Write` with the suffix, or
its reply shows a marked text and it is recorded on neither. -/
theorem recordedAlike_iff (s : Server) (ss : Session) (com : Str) (a t : Int) (connected : Bool)
    {msg : Str} {w' : World} (hcom : backspace ∉ com) (hwrite : commandType com = .write)
    (h₀ : 0 ≤ a) (h₁ : a ≤ 255) (hss : ss.autoSendYes = true)
    (howns : refused s.w.h (words com) = false)
    (hexec : execute com (toU8 a) t s.w = some (msg, w')) :
    RecordedAlike (scanAndSend s ss (forwarded { auth := a } com) t connected)
        (scanAndSend s { auth := a } com t connected) ↔
      StaysWrite (words com) ∨ ∃ x, shown (words com) (toU8 a) t s.w.h = some x ∧ x.Marked := by
  have hctl := not_control_of_write hwrite
  have hauth : -2 ^ 31 ≤ a ∧ a < 2 ^ 31 := by omega
  have hfwd : scanAndSend s ss (forwarded { auth := a } com) t connected
      = route { s with w := w' } ss (forwarded { auth := a } com) connected msg := by
    rw [scanAndSend, authority_forwarded hcom hauth, execute, words_commandPart_forwarded hcom,
      ← execute, hexec, Option.bind_some]
  have hdirect : scanAndSend s { auth := a } com t connected
      = route { s with w := w' } { auth := a } com connected msg := by
    rw [scanAndSend, authority, if_neg hcom, commandPart_of_not_mem hcom, hexec, Option.bind_some]
  rw [hfwd, hdirect, ← (reports_shown hctl howns hexec).marked_iff]
  by_cases hm : Marked msg
  · obtain ⟨h₁, h₂⟩ := @not_recorded_of_marked { s with w := w' } ss
      (forwarded { auth := a } com) msg connected hm
    obtain ⟨h₃, h₄⟩ := @not_recorded_of_marked { s with w := w' } { auth := a } com msg
      connected hm
    exact iff_of_true ⟨iff_of_false h₁ h₃, iff_of_false h₂ h₄⟩ (Or.inr hm)
  · rw [or_iff_left hm, ← @commandType_forwarded { auth := a } com hwrite, RecordedAlike,
      (recorded_route hss hm).1, (recorded_route hss hm).2, (recorded_route rfl hm).1,
      (recorded_route rfl hm).2]
    constructor
    · exact fun h => h.1.mpr hwrite
    · exact fun h => ⟨iff_of_true h hwrite, by rw [iff_true_intro h, iff_true_intro hwrite]⟩

/-- A server with a list under the key `k`, and one replica. -/
def listWithReplica : Server where
  w := { World.fresh 8000 with h := (Hash.new 8000).set (lit "k") (.list [lit "a"]) 0 5 }
  replicaNum := 2
  replicaSock := [some (lit "127.0.0.1", 8001)]

/-- A `lpush` is logged and sent to the replica on both ways. -/
theorem recordedAlike_lpush :
    Logs (scanAndSend listWithReplica {} (forwarded { auth := 5 } (lit "lpush k x")) 0 true) ∧
    Replicates (scanAndSend listWithReplica {} (forwarded { auth := 5 } (lit "lpush k x")) 0 true) ∧
    RecordedAlike
      (scanAndSend listWithReplica {} (forwarded { auth := 5 } (lit "lpush k x")) 0 true)
      (scanAndSend listWithReplica { auth := 5 } (lit "lpush k x") 0 true) := by
  obtain ⟨w', hexec⟩ : ∃ w', execute (lit "lpush k x") (toU8 5) 0 listWithReplica.w
      = some (confirmMsg, w') := ⟨_, rfl⟩
  have hstays : StaysWrite (words (lit "lpush k x")) :=
    ⟨lit "lpush", by decide, Or.inl (by decide)⟩
  exact ⟨⟨_, rfl, Option.some_ne_none _⟩, ⟨_, rfl, Option.some_ne_none _⟩,
    (recordedAlike_iff _ _ _ 5 0 true (by decide) (by decide) (by decide) (by decide) rfl rfl
      hexec).mpr (Or.inl hstays)⟩

/-- **A forwarded deletion is not logged.**  The node that owns `k` logs `del k` from its own client,
and executes it without logging it when a peer forwards it. -/
theorem not_recordedAlike_del :
    Logs (scanAndSend (holding (lit "v")) {} (lit "del k") 0 true) ∧
      ¬ ∀ (s : Server) (ss : Session) (com : Str) (a t : Int) (connected : Bool) (msg : Str)
        (w' : World), backspace ∉ com → commandType com = .write → 0 ≤ a → a ≤ 255 →
        ss.autoSendYes = true → refused s.w.h (words com) = false →
        execute com (toU8 a) t s.w = some (msg, w') →
        RecordedAlike (scanAndSend s ss (forwarded { auth := a } com) t connected)
          (scanAndSend s { auth := a } com t connected) := by
  have hlog : Logs (scanAndSend (holding (lit "v")) {} (lit "del k") 0 true) :=
    ⟨_, rfl, Option.some_ne_none _⟩
  refine ⟨hlog, fun h => ?_⟩
  have hexec : ∃ w', execute (lit "del k") (toU8 0) 0 (holding (lit "v")).w
      = some (confirmMsg, w') := ⟨_, rfl⟩
  obtain ⟨w', hw'⟩ := hexec
  obtain ⟨y, hy, hne⟩ := (h (holding (lit "v")) {} (lit "del k") 0 0 true confirmMsg w' (by decide)
    (by decide) (by decide) (by decide) rfl rfl hw').1.mpr hlog
  have hfwd : (scanAndSend (holding (lit "v")) {} (forwarded { auth := 0 } (lit "del k")) 0 true).map
      Scan.log = some none := rfl
  rw [hy] at hfwd
  exact hne (Option.some.inj hfwd)

end MuseKv
