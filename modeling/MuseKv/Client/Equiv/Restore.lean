import MuseKv.Client.Equiv.Recover

/-!
# What `recover` does with a log

The lines of a log are numbers with a `\` behind each: one word, which no server knows.  So the file as the
server wrote it changes nothing (**`restores_nothing`**).  Decrypted, a line is a write with its authority
behind a backspace, and the texts of all lines perform the writes again: on a new server they leave the table
of the server that wrote the log (**`recovers`**).
-/

namespace MuseKv.Recover

open General Kvstore Command Serving LogAppend LoggedServer Encrypt

variable {memory : Str} {clock : ℕ → Int} {r : Task}

/-! ### The lines as they are written -/

/-- A log consists of lines of `log_append`, whatever was executed. -/
theorem exists_log {ok : LoggedServer → Step → Prop} {s s' : LoggedServer} (hrun : Run ok s s') (hlog : s.log = []) :
    ∃ as, s'.log = logFile as := by
  induction hrun with
  | refl => exact ⟨[], hlog⟩
  | @tail s₁ s₂ e _ _ hstep ih =>
    obtain ⟨as, has⟩ := ih
    cases e with
    | command ss com t connected =>
      obtain ⟨x, -, rfl⟩ := Option.map_eq_some_iff.mp hstep
      exact ⟨as, has⟩
    | append index =>
      obtain ⟨a, -, rfl⟩ := Option.map_eq_some_iff.mp hstep
      refine ⟨as ++ [a], ?_⟩
      dsimp only
      rw [has, logFile, logFile, List.flatMap_append, List.flatMap_singleton]

/-- A line has no byte but digits and `\`. -/
theorem mem_line {a : LogAppend} {c : UInt8} (h : c ∈ a.line) : isDigit c = true ∨ c = byte '\\' := by
  rw [line] at h
  obtain ⟨b, -, hc⟩ := List.mem_flatMap.mp h
  rcases List.mem_append.mp hc with hc | hc
  · exact Or.inl (isDigit_of_mem_digits hc)
  · exact Or.inr (List.mem_singleton.mp hc)

/-- A byte that is neither is in no line. -/
theorem ne_of_mem_line {a : LogAppend} {c b : UInt8} (h : c ∈ a.line) (hb : isDigit b = false)
    (hb' : b ≠ byte '\\') : c ≠ b := by
  rintro rfl
  rcases mem_line h with hdigit | heq
  · rw [hb] at hdigit
    exact Bool.false_ne_true hdigit
  · exact hb' heq

/-- There is a `\` behind the last number. -/
theorem backslash_mem_line (a : LogAppend) : byte '\\' ∈ a.line := by
  have htext : backspace ∈ a.text := by
    rw [text]
    simp
  exact List.mem_flatMap.mpr ⟨backspace, htext, List.mem_append_right _ (List.mem_singleton_self _)⟩

/-- A line is a word. -/
theorem words_line (a : LogAppend) : words a.line = [a.line] := by
  refine words_eq_singleton (List.ne_nil_of_mem (backslash_mem_line a)) fun c hc => ?_
  exact beq_eq_false_iff_ne.mpr (ne_of_mem_line hc (by decide) (by decide))

theorem not_mem_of_plain {a : LogAppend} {b : UInt8} (hb : isDigit b = false) (hb' : b ≠ byte '\\') :
    b ∉ a.line := fun h => ne_of_mem_line h hb hb' rfl

/-- **A line is no command.** -/
theorem execute_line (a : LogAppend) (auth : UInt8) (t : Int) (w : World) :
    execute a.line auth t w = some (invalidCommand, w) := by
  have hctl : ∀ word ∈ controlWords, byte '\\' ∉ word := by decide
  have hrows : ∀ word ∈ dispatch.map Prod.fst, byte '\\' ∉ word := by decide
  have hlook : lookup dispatch a.line (([] : List Str).length + 1) = none := by
    rw [lookup, Option.map_eq_none_iff, List.find?_eq_none]
    intro row hrow hfound
    rw [Bool.and_eq_true, decide_eq_true_eq] at hfound
    exact hrows row.1 (List.mem_map_of_mem hrow) (hfound.1 ▸ backslash_mem_line a)
  rw [execute, words_line, executeWords, if_neg fun h => hctl _ h (backslash_mem_line a),
    if_neg (by simp), hlook]

/-- A byte is written as a number of seven digits at most. -/
theorem length_line_le (a : LogAppend) : a.line.length ≤ 8 * a.text.length := by
  have hnumber : ∀ c, (toStr (number c)).length ≤ 7 := by
    intro c
    have hlt : number c < 1483513 := powMod_lt (by norm_num) _ _
    have hlen := Nat.toDigits_length 10 (number c) 7 (by norm_num) (by omega)
    change ((Nat.toDigits 10 (number c)).map byte).length ≤ 7
    rwa [List.length_map]
  rw [line]
  induction a.text with
  | nil => exact Nat.le_refl _
  | cons c cs ih =>
    have hc := hnumber c
    rw [List.flatMap_cons, List.length_append, List.length_append, List.length_singleton,
      List.length_cons]
    omega

/-- Nor does it look like one. -/
theorem arrives_line {a : LogAppend} (h : a.line.length < 1024) : Arrives a.line where
  sent := List.ne_nil_of_mem (backslash_mem_line a)
  whole := h
  text := not_mem_of_plain (by decide) (by decide)
  command := fun heq => absurd (backslash_mem_line a) (heq ▸ by decide)

/-- All of them are refused. -/
theorem runAll_lines (as : List LogAppend) (ss : Session) (w : World) :
    runAll (performed ss clock (as.map line)) w = some (as.map fun _ => invalidCommand, w) := by
  induction as with
  | nil => rfl
  | cons a as ih =>
    have hplain : commandPart a.line = a.line :=
      commandPart_of_not_mem (not_mem_of_plain (by decide) (by decide))
    rw [List.map_cons, performed, runAll]
    dsimp only
    rw [hplain, execute_line, Option.bind_some, ih, Option.map_some, List.map_cons]

/-- **A log as it is written restores nothing.**  Whatever a server executed and in whichever order its
threads obtained the mutex, `recover` sends the lines of its log, if they fit the buffer, and each is
answered by an error; the server that it is connected to stays as it is. -/
theorem restores_nothing {ok : LoggedServer → Step → Prop} {s s' : LoggedServer} (hlog : s.log = [])
    (hrun : Run ok s s') (hshort : ∀ l ∈ getLines s'.log, l.length < 1024) :
    ∃ buf, taskClient memory clock (getLines s'.log) r = some ⟨r.server, r.session, buf,
      r.printed ++ prints r.buf ((getLines s'.log).map fun _ => invalidCommand)⟩ := by
  obtain ⟨as, has⟩ := exists_log hrun hlog
  have hanswer : Answerable invalidCommand :=
    ⟨by decide, by decide, by decide, not_marked (by decide) (by decide)⟩
  rw [has, getLines_logFile] at hshort ⊢
  rw [List.map_map]
  refine taskClient_performed (fun lr hlr => ?_) (runAll_lines as r.session r.server.w) fun m hm => ?_
  · obtain ⟨a, -, rfl⟩ := List.mem_map.mp hlr
    exact arrives_line (hshort _ hlr)
  · obtain ⟨_, -, heq⟩ := List.mem_map.mp hm
    exact heq ▸ hanswer

/-- A task of `recover` on a new server. -/
def newTask : Task := { server := { w := World.fresh 8000 }, session := {}, buf := startBuf (lit "0") }

/-- Two writes, the second of which was written first. -/
theorem exists_crossed : ∃ s, crossed (lit "make k a") (lit "make l b") = some s ∧
    Run (Writes InOrder) start s ∧ s.threads = [] ∧
    s.server.w.h.findNode (lit "k") = some ⟨.string (lit "a"), -1, 0, false, 0, 0⟩ ∧
    s.log = logFile [.of {} (lit "make l b"), .of {} (lit "make k a")] := by
  obtain ⟨s, hs, hdone, hk, hlog⟩ : ∃ s, crossed (lit "make k a") (lit "make l b") = some s ∧
      s.threads = [] ∧
      s.server.w.h.findNode (lit "k") = some ⟨.string (lit "a"), -1, 0, false, 0, 0⟩ ∧
      s.log = ([] ++ ((LogAppend.of {} (lit "make l b")).line ++ [10])) ++
        ((LogAppend.of {} (lit "make k a")).line ++ [10]) := ⟨_, rfl, rfl, rfl, rfl⟩
  refine ⟨s, hs, run_crossed InOrder ?_ ?_ ?_ ?_ hs, hdone, hk, ?_⟩
  · exact loggable_make (k := lit "k") (v := lit "a") (by decide) (by decide) (by decide)
  · exact loggable_make (k := lit "l") (v := lit "b") (by decide) (by decide) (by decide)
  · intro s₂ htwo a ha b hb
    have hthreads : (twoCommands (lit "make k a") (lit "make l b")).map LoggedServer.threads
        = some [.of {} (lit "make k a"), .of {} (lit "make l b")] := rfl
    rw [htwo, Option.map_some, Option.some.injEq] at hthreads
    rw [hthreads] at ha hb
    obtain rfl := Option.some.inj ha
    obtain rfl := List.mem_singleton.mp hb
    decide
  · intro s a _ b hb
    exact absurd hb (by simp)
  · rw [hlog, List.nil_append, logFile, List.flatMap_cons, List.flatMap_singleton]

/-- Its log changes nothing. -/
theorem restores_nothing_crossed : ∃ s r', crossed (lit "make k a") (lit "make l b") = some s ∧
    taskClient [] (fun _ => 0) (getLines s.log) newTask = some r' ∧
    r'.server.w.h.findNode (lit "k") = none := by
  obtain ⟨s, hs, hrun, -, -, hlog⟩ := exists_crossed
  have hshort : ∀ l ∈ getLines s.log, l.length < 1024 := by
    rw [hlog, getLines_logFile]
    intro l hl
    obtain ⟨a, ha, rfl⟩ := List.mem_map.mp hl
    have htext : ∀ a ∈ [LogAppend.of {} (lit "make l b"), .of {} (lit "make k a")],
        a.text.length < 128 := by decide
    have hlen := length_line_le a
    have ha := htext a ha
    omega
  obtain ⟨buf, htask⟩ : ∃ buf, taskClient [] (fun _ => 0) (getLines s.log) newTask = some _ :=
    restores_nothing (s := start) rfl hrun hshort
  exact ⟨s, _, hs, htask, rfl⟩

/-! ### The texts of the lines -/

/-- A write of the log, executed: its step, and a reply that means nothing else. -/
theorem execute_write {s : Server} {ss : Session} {com : Str} {t : Int} {v : Option Kv} (hs : s.Calm)
    (hws : Sendable (words (commandPart com)))
    (hv : writeStep (words (commandPart com)) (toU8 (authority ss com))
      (s.entry (keyOf (words (commandPart com)))) = some v) :
    ∃ msg w', execute (commandPart com) (toU8 (authority ss com)) t s.w = some (msg, w') ∧
      ¬ Marked msg ∧ ({ s with w := w' } : Server).Calm ∧
      ({ s with w := w' } : Server).entry =
        Function.update s.entry (keyOf (words (commandPart com))) v := by
  obtain ⟨x, hx⟩ : ∃ x, scanAndSend s ss com t true = some x := hs.exists_scanAndSend hws hv
  obtain ⟨v', hv', hentry, hcalm, -⟩ := hs.scanAndSend_write hws hx
  obtain rfl := Option.some.inj (hv.symm.trans hv')
  -- the reply and the table of `scan_and_send` are those of `execute`
  rw [hs.scanAndSend_eq hws] at hx
  obtain ⟨⟨msg, act⟩, hr, hx⟩ := Option.bind_eq_some_iff.mp hx
  obtain ⟨h, hh, hx⟩ := Option.bind_eq_some_iff.mp hx
  split_ifs at hx with hm
  obtain rfl := Option.some.inj hx
  refine ⟨msg, { s.w with h := h }, ?_, hm, hcalm, hentry⟩
  rw [execute, executeWords_write hws (hs.standalone.not_refused _),
    @keyResult_time _ (words (commandPart com)) _ t 0 hws (hs.steady _), hr, Option.bind_some, hh,
    Option.map_some]

/-- **The texts perform the writes of the lines.** -/
theorem runAll_texts (clock : ℕ → Int) {as : List LogAppend} {s : Server} {σ : Str → Option Kv} (ss : Session)
    (has : ∀ a ∈ as, a.Proper) (hs : s.Calm) (hrun : writes.run as s.entry = some σ) :
    ∃ replies w', runAll (performed ss clock (as.map text)) s.w = some (replies, w') ∧
      (∀ m ∈ replies, ¬ Marked m) ∧ ({ s with w := w' } : Server).entry = σ := by
  induction as generalizing s with
  | nil => exact ⟨[], s.w, rfl, by simp, Option.some.inj hrun⟩
  | cons a as ih =>
    obtain ⟨ha, has⟩ := List.forall_mem_cons.mp has
    obtain ⟨hws, -, hcut, hauth⟩ := ha.parts ss
    obtain ⟨σ₁, hstep, hrun⟩ := Option.bind_eq_some_iff.mp hrun
    obtain ⟨v, hv, rfl⟩ := Option.map_eq_some_iff.mp hstep
    rw [← hcut] at hws
    -- the text carries the words and the authority of the write
    have hwrite : writeStep (words (commandPart a.text)) (toU8 (authority ss a.text))
        (s.entry (keyOf (words (commandPart a.text)))) = some v := by
      rw [hcut, hauth]
      exact hv
    obtain ⟨msg, w₁, hexec, hplain, hcalm, hentry⟩ := execute_write
      (t := clock (as.map text).length) hs hws hwrite
    rw [hcut] at hentry
    change writes.run as (Function.update s.entry (keyOf (words (commandPart a.com))) v) = some σ at hrun
    rw [← hentry] at hrun
    obtain ⟨replies, w', hrest, hmarks, hσ⟩ := ih has hcalm hrun
    refine ⟨msg :: replies, w', ?_, List.forall_mem_cons.mpr ⟨hplain, hmarks⟩, hσ⟩
    rw [List.map_cons, performed, runAll]
    dsimp only
    rw [hexec, Option.bind_some, hrest, Option.map_some]

/-- The lines decrypt to their texts. -/
theorem mapM_decryptString {as : List LogAppend} {d : Int} (hd : 0 < d)
    (h : 28969 * d % (1020 * 1452) = 1) (has : ∀ a ∈ as, a.Proper) :
    (as.map line).mapM (decryptString modulus d) = some (as.map text) := by
  induction as with
  | nil => rfl
  | cons a as ih =>
    obtain ⟨ha, has⟩ := List.forall_mem_cons.mp has
    rw [List.map_cons, List.mapM_cons, ha.decryptString_line hd h, ih has]
    rfl

/-- A file of texts. -/
def textFile (texts : List Str) : Str := texts.flatMap fun lr => lr ++ [10]

theorem getLines_textFile {texts : List Str} (h : ∀ lr ∈ texts, (10 : UInt8) ∉ lr) :
    getLines (textFile texts) = texts := by
  have hsplit : (textFile texts).splitOn 10 = texts ++ [[]] := by
    induction texts with
    | nil => rfl
    | cons lr texts ih =>
      obtain ⟨hlr, h⟩ := List.forall_mem_cons.mp h
      rw [textFile, List.flatMap_cons, ← textFile, List.append_assoc, List.singleton_append,
        List.splitOn_append_cons_self_of_not_mem hlr, ih h]
      rfl
  rw [getLines, hsplit, if_pos (by simp), List.dropLast_concat]

/-- A text of the log arrives, if it fits the buffer. -/
theorem arrives_text {a : LogAppend} (ha : a.Proper) (h : a.text.length < 1024) : Arrives a.text where
  sent := by
    rw [text]
    simp [lit]
  whole := h
  text h0 := (ha.isAscii 0 h0).1 rfl
  command heq := by
    have hmem : backspace ∈ lit "quit" := by
      rw [← heq, LogAppend.text]
      simp
    exact absurd hmem (by decide)

/-- **A server is recovered from its log.**  When its writes were executed and their threads obtained the
mutex, those of one key in order, the log decrypts to texts that `recover` can send line by line, at any
times, to any new server: it performs them without a fault and has the table of the server that wrote the
log.  The lines have to fit the buffer, and so have the replies, of which none may be empty. -/
theorem recovers {s s' : LoggedServer} (hs : s.IsNew) (hrun : Run (Writes InOrder) s s')
    (hdone : s'.threads = []) {d : Int} (hd : 0 < d) (hmatch : 28969 * d % (1020 * 1452) = 1)
    (hr : r.server.Standalone) (hempty : ∀ k, r.server.w.h.findNode k = none) :
    ∃ texts replies w', (getLines s'.log).mapM (decryptString modulus d) = some texts ∧
      runAll (performed r.session clock texts) r.server.w = some (replies, w') ∧
      (∀ k, w'.h.findNode k = s'.server.w.h.findNode k) ∧
      ((∀ lr ∈ texts, lr.length < 1024 ∧ (10 : UInt8) ∉ lr) →
        (∀ m ∈ replies, m ≠ [] ∧ m.length < 1024 ∧ (0 : UInt8) ∉ m) →
          ∃ buf, taskClient memory clock (getLines (textFile texts)) r = some
            ⟨{ r.server with w := w' }, r.session, buf, r.printed ++ prints r.buf replies⟩) := by
  obtain ⟨written, hlog, hproper, hjournal⟩ := (hs.written.run hrun).journal
  have has : ∀ a ∈ written, a.Proper := fun a ha => hproper a (List.mem_append_left _ ha)
  have hcalm : r.server.Calm := ⟨hr, fun k n hn => by
    rw [hempty k] at hn
    exact absurd hn (by simp)⟩
  have hentry : r.server.entry = fun _ => none := funext hempty
  have hwrites := hjournal.rebuilds hdone
  rw [← hentry] at hwrites
  obtain ⟨replies, w', hall, hmarks, hσ⟩ := runAll_texts clock r.session has hcalm hwrites
  refine ⟨written.map text, replies, w', ?_, hall, fun k => congrFun hσ k, fun htexts hreplies => ?_⟩
  · rw [hlog, getLines_logFile]
    exact mapM_decryptString hd hmatch has
  · rw [getLines_textFile fun lr hlr => (htexts lr hlr).2]
    refine taskClient_performed (fun lr hlr => ?_) hall fun m hm => ?_
    · obtain ⟨a, ha, rfl⟩ := List.mem_map.mp hlr
      exact arrives_text (has a ha) (htexts _ hlr).1
    · obtain ⟨hne, hlen, h0⟩ := hreplies m hm
      exact ⟨hne, hlen, h0, hmarks m hm⟩

/-- The texts of the same log restore both keys. -/
theorem recovers_crossed : ∃ s texts r', crossed (lit "make k a") (lit "make l b") = some s ∧
    (getLines s.log).mapM (decryptString modulus 409) = some texts ∧
    taskClient [] (fun _ => 0) (getLines (textFile texts)) newTask = some r' ∧
    r'.server.w.h.findNode (lit "k") = some ⟨.string (lit "a"), -1, 0, false, 0, 0⟩ := by
  obtain ⟨s, hs, hrun, hdone, hk, hlog⟩ := exists_crossed
  have hempty : ∀ k, newTask.server.w.h.findNode k = none := isNew_start.empty
  obtain ⟨texts, replies, w', htexts, hall, hsame, htask⟩ := @recovers [] (fun _ => 0) newTask _ _
    isNew_start hrun hdone 409 (by decide) (by decide) isNew_start.standalone hempty
  have hproper : ∀ a ∈ [LogAppend.of {} (lit "make l b"), .of {} (lit "make k a")], a.Proper := by
    simp only [List.forall_mem_cons, List.not_mem_nil, IsEmpty.forall_iff, implies_true, and_true]
    exact ⟨LogAppend.proper_of (loggable_make (k := lit "l") (v := lit "b") (by decide) (by decide)
      (by decide)), LogAppend.proper_of (loggable_make (k := lit "k") (v := lit "a") (by decide)
      (by decide) (by decide))⟩
  -- the texts are the two writes, each with its authority twice behind it
  have hlines := mapM_decryptString (d := 409) (by decide) (by decide) hproper
  rw [← getLines_logFile, ← hlog] at hlines
  obtain rfl := Option.some.inj (htexts.symm.trans hlines)
  obtain ⟨w₂, hreplies⟩ : ∃ w₂, runAll (performed newTask.session (fun _ => 0)
      [(LogAppend.of {} (lit "make l b")).text, (LogAppend.of {} (lit "make k a")).text])
      newTask.server.w = some ([confirmMsg, confirmMsg], w₂) := ⟨_, rfl⟩
  obtain ⟨rfl, -⟩ := Prod.mk.inj (Option.some.inj (hall.symm.trans hreplies))
  obtain ⟨buf, hbuf⟩ := htask (by decide) (by decide)
  exact ⟨s, _, _, hs, htexts, hbuf, (hsame _).trans hk⟩

end MuseKv.Recover
