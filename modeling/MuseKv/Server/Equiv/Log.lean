import MuseKv.Command.Equiv.Steady
import MuseKv.Encrypt.Equiv.Lossless
import MuseKv.General.Journal
import MuseKv.Server.Equiv.Write
import MuseKv.Server.Log

/-!
# What the command log rebuilds

On a standalone server a write is one step on the entry of its key (`writeStep`), at any time, and it
faults where its reply would send it elsewhere (`scanAndSend_eq`).  The lines of the log decrypt to the
texts of the writes (`getLines_logFile`, `decryptString_line`), so restoring them performs the same
steps (`restore_eq`).  The log is a journal of these steps: `rebuilds_of_inOrder`.
-/

namespace MuseKv

open General Kvstore Command Encrypt

/-! ### One step of a key -/

/-- The entry an action leaves under its key, unless it faults. -/
def KeyAction.outcome : KeyAction → Option Kv → Option (Option Kv)
  | .del, node => node.bind fun n => if n.v.isUnset then none else some none
  | a, node => some (a.run node)

theorem KeyAction.outcome_of_apply {h h' : Hash} {k : Str} {a : KeyAction}
    (ha : h.apply k a = some h') : a.outcome (h.findNode k) = some (a.run (h.findNode k)) := by
  cases a with
  | keep | set | write => rfl
  | del =>
    obtain ⟨⟨n, hn, hv⟩, -⟩ := Hash.del_eq_some ha
    rw [outcome, hn, Option.bind_some, hv]
    rfl

theorem KeyAction.apply_of_outcome {h : Hash} {k : Str} {a : KeyAction} {v : Option Kv}
    (ha : a.outcome (h.findNode k) = some v) : ∃ h', h.apply k a = some h' := by
  cases a with
  | keep | set | write => exact ⟨_, rfl⟩
  | del =>
    obtain ⟨n, hn, hv⟩ := Option.bind_eq_some_iff.mp ha
    split_ifs at hv with hunset
    exact Hash.del_isSome hn (by simpa using hunset)

instance (msg : Str) : Decidable (Marked msg) := inferInstanceAs (Decidable (_ ∨ _))

/-- What a write does to the entry of its key, on a server that can send it nowhere. -/
def writeStep (ws : List Str) (auth : UInt8) (node : Option Kv) : Option (Option Kv) :=
  (keyResult ws auth 0 node).bind fun r => if Marked r.1 then none else r.2.outcome node

/-- The writes of the log, as operations on the entries of their keys. -/
def writes : Keyed Str (Option Kv) LogAppend where
  key := LogAppend.key
  step a := writeStep (words (commandPart a.com)) (toU8 (atoi (suffixPart a.com)))

/-- A standalone server without lifetimes. -/
structure Server.Calm (s : Server) : Prop where
  standalone : s.Standalone
  steady : ∀ k, Steady (s.w.h.findNode k)

namespace Server

variable {s : Server} {ss : Session} {com : Str} {t : Int} {connected : Bool} {x : Scan}

theorem Standalone.not_refused (hs : s.Standalone) (ws : List Str) : refused s.w.h ws = false := by
  rw [← Bool.not_eq_true, refused_iff]
  rintro ⟨k, -, hk⟩
  rw [hs.here k] at hk
  exact Bool.false_ne_true hk

/-- There is nobody to ask. -/
theorem Standalone.ask_eq_none {w : World} (hs : s.Standalone) (com msg : Str) :
    ask { s with w := w } com msg = none := by
  rw [ask]
  cases substr msg 8 with
  | none => rfl
  | some hash =>
    rw [Option.bind_some]
    cases search { s with w := w } (atoi hash) with
    | none => rfl
    | some index =>
      rw [Option.bind_some]
      dsimp only
      rw [hs.clusterVec]
      rfl

/-- What `scan_and_send` leaves after a write whose reply is not marked. -/
def answered (s : Server) (ss : Session) (com msg : Str) (h : Hash) : Scan where
  server := { s with w := { s.w with h := h } }
  session := ss
  send := .client msg
  log := if commandType com = .write then
      some (commandPart com ++ backspace :: byte ' ' :: toStr (authority ss com)) else none
  autoSend := if ss.autoSendYes && commandType com = .write && s.replicaNum ≠ 0 then
      some (commandPart com) else none

/-- **A write on a standalone server**: one action under its key, unless its reply is marked. -/
theorem Calm.scanAndSend_eq (hs : s.Calm) (hws : Sendable (words (commandPart com))) :
    scanAndSend s ss com t connected =
      (keyResult (words (commandPart com)) (toU8 (authority ss com)) 0
          (s.w.h.findNode (keyOf (words (commandPart com))))).bind fun r =>
        (s.w.h.apply (keyOf (words (commandPart com))) r.2).bind fun h =>
          if Marked r.1 then none else some (s.answered ss com r.1 h) := by
  have hnode := hs.steady (keyOf (words (commandPart com)))
  have hwords : ∀ x ∈ words (commandPart com), byte ' ' ∉ x := fun x hx hblank =>
    absurd (mem_words hx _ hblank).1 (by decide)
  rw [scanAndSend, execute, executeWords_write hws (hs.standalone.not_refused _),
    @keyResult_time _ (words (commandPart com)) (toU8 (authority ss com)) t 0 hws hnode, Option.bind_assoc]
  refine Option.bind_congr fun r hr => ?_
  rw [Option.bind_map]
  refine Option.bind_congr fun h _ => ?_
  rw [Function.comp_apply]
  by_cases hm : Marked r.1
  · rw [if_pos hm]
    rcases hm with hhash | ⟨word, -, hmagic⟩
    · rw [route_ask hhash, hs.standalone.ask_eq_none, Option.map_none]
    · -- no reply to a write starts with a blank
      refine absurd ?_ (keyResult_steady hws hwords hnode hr).1
      rw [hmagic]
      rfl
  · rw [if_neg hm, route_client hm]
    rfl

/-- The entries of a server. -/
def entry (s : Server) (k : Str) : Option Kv := s.w.h.findNode k

/-- **A write performs its step** on the entry of its key. -/
theorem Calm.scanAndSend_write (hs : s.Calm) (hws : Sendable (words (commandPart com)))
    (h : scanAndSend s ss com t connected = some x) :
    ∃ v, writeStep (words (commandPart com)) (toU8 (authority ss com))
        (s.entry (keyOf (words (commandPart com)))) = some v ∧
      x.server.entry = Function.update s.entry (keyOf (words (commandPart com))) v ∧
      x.server.Calm ∧ x.session = ss ∧
      x.log = if commandType com = .write then
        some (commandPart com ++ backspace :: byte ' ' :: toStr (authority ss com)) else none := by
  have hnode := hs.steady (keyOf (words (commandPart com)))
  have hwords : ∀ x ∈ words (commandPart com), byte ' ' ∉ x := fun x hx hblank =>
    absurd (mem_words hx _ hblank).1 (by decide)
  rw [hs.scanAndSend_eq hws] at h
  obtain ⟨⟨msg, a⟩, hr, h⟩ := Option.bind_eq_some_iff.mp h
  obtain ⟨h', ha, h⟩ := Option.bind_eq_some_iff.mp h
  split_ifs at h with hm
  obtain rfl := Option.some.inj h
  -- only the entry of the key is changed
  have hentry : (s.answered ss com msg h').server.entry = Function.update s.entry
      (keyOf (words (commandPart com)))
      (a.run (s.w.h.findNode (keyOf (words (commandPart com))))) := by
    ext1 k
    rw [Function.update_apply]
    exact Hash.findNode_apply ha k
  have hbounds := Hash.apply_bounds ha
  refine ⟨_, ?_, hentry, ⟨⟨hs.standalone.clusterVec, fun k => ?_⟩, fun k => ?_⟩, rfl, rfl⟩
  · rw [writeStep, entry, hr, Option.bind_some, if_neg hm]
    exact KeyAction.outcome_of_apply ha
  · -- an action does not move the bounds of the share
    have hhere := hs.standalone.here k
    rw [notHere] at hhere ⊢
    change (Hash.hashFunc k < h'.startNum || Hash.hashFunc k > h'.endNum) = false
    rw [hbounds.2.1, hbounds.2.2]
    exact hhere
  · change Steady ((s.answered ss com msg h').server.entry k)
    rw [hentry, Function.update_apply]
    split_ifs
    · exact (keyResult_steady hws hwords hnode hr).2
    · exact hs.steady k

/-- A write does not fault where its step does not. -/
theorem Calm.exists_scanAndSend (hs : s.Calm) (hws : Sendable (words (commandPart com)))
    {v : Option Kv} (h : writeStep (words (commandPart com)) (toU8 (authority ss com))
      (s.entry (keyOf (words (commandPart com)))) = some v) :
    ∃ x, scanAndSend s ss com t connected = some x := by
  obtain ⟨r, hr, h⟩ := Option.bind_eq_some_iff.mp h
  split_ifs at h with hm
  obtain ⟨h', ha⟩ := KeyAction.apply_of_outcome h
  rw [hs.scanAndSend_eq hws]
  rw [entry] at hr
  rw [hr, Option.bind_some, ha, Option.bind_some, if_neg hm]
  exact ⟨_, rfl⟩

end Server

/-! ### The lines -/

/-- A thread that a write started: its text is the command with the authority behind it. -/
structure LogAppend.Proper (a : LogAppend) : Prop where
  com : ∃ cut, backspace ∉ cut ∧ a.com = cut ++ backspace :: byte ' ' :: toStr a.auth ∧ IsAscii cut ∧
    Sendable (words cut)
  auth : -2 ^ 31 ≤ a.auth ∧ a.auth < 2 ^ 31

namespace LogAppend

variable {a : LogAppend}

/-- A byte of an ASCII text is encrypted as anywhere else. -/
theorem number_eq {c : UInt8} (hc : c < 128) : (number c : Int) = encrypt modulus exponent c := by
  have hN : (1483513 : ℕ) = wrapU64 modulus := rfl
  have he : (28969 : ℕ) = exponent.toNat := rfl
  have hchar : wrapU64 (charToInt c) = c.toNat := by
    have hlt := c.toNat_lt
    rw [charToInt, if_pos hc, wrapU64_of_bounds (by omega) (by omega), Int.toNat_natCast]
  have hbound : number c < 1483513 := by
    have hlt := c.toNat_lt
    rw [number, hchar, powMod_eq (by norm_num) (by omega)]
    exact Nat.mod_lt _ (by norm_num)
  rw [encrypt, ← hN, ← he, ← hchar]
  exact (wrap32_of_bounds (by omega) (by omega)).symm

theorem isAscii_toStr (x : Int) : IsAscii (toStr x) := by
  intro c hc
  rcases mem_toStr hc with hdigit | rfl
  · rw [isDigit, Bool.and_eq_true, decide_eq_true_eq, decide_eq_true_eq] at hdigit
    have hlo : byte '0' = 48 := by decide
    have hhi : byte '9' = 57 := by decide
    rw [hlo, hhi, UInt8.le_iff_toNat_le, UInt8.le_iff_toNat_le] at hdigit
    have h48 : (48 : UInt8).toNat = 48 := rfl
    have h57 : (57 : UInt8).toNat = 57 := rfl
    have h128 : (128 : UInt8).toNat = 128 := rfl
    constructor
    · rintro rfl
      have h0 : (0 : UInt8).toNat = 0 := rfl
      omega
    · rw [UInt8.lt_iff_toNat_lt]
      omega
  · decide

theorem Proper.isAscii (ha : a.Proper) : IsAscii a.text := by
  obtain ⟨cut, -, hcom, hcut, -⟩ := ha.com
  intro c hc
  rw [text, hcom] at hc
  have hblank : IsAscii (lit " ") := by decide
  simp only [List.mem_append, List.mem_cons] at hc
  rcases hc with (hc | rfl | rfl | hc) | (hc | rfl | hc) | hc
  · exact hcut c hc
  · decide
  · decide
  · exact isAscii_toStr _ c hc
  · exact hblank c hc
  · decide
  · exact hblank c hc
  · exact isAscii_toStr _ c hc

theorem Proper.line_eq (ha : a.Proper) : a.line = encryptString modulus exponent a.text := by
  rw [line, encryptString]
  refine List.flatMap_congr fun c hc => ?_
  rw [number_eq (ha.isAscii c hc).2]

/-- **A line decrypts to its text.** -/
theorem Proper.decryptString_line (ha : a.Proper) {d : Int} (hd : 0 < d)
    (h : 28969 * d % (1020 * 1452) = 1) : decryptString modulus d a.line = some a.text := by
  have hmodulus : modulus = ((1483513 : ℕ) : Int) := rfl
  have htext : a.text ≠ [] := by
    rw [text]
    simp [lit]
  rw [ha.line_eq, hmodulus]
  exact decryptString_of_bytes (by norm_num) (by norm_num)
    (fun c _ => decrypt_encrypt_modulus hd h c) htext fun h0 => (ha.isAscii 0 h0).1 rfl

theorem not_mem_line (a : LogAppend) : (10 : UInt8) ∉ a.line := by
  intro h
  rw [line] at h
  obtain ⟨c, -, hc⟩ := List.mem_flatMap.mp h
  rcases List.mem_append.mp hc with hc | hc
  · exact not_mem_toStr (by decide) (by decide) _ hc
  · exact absurd (List.mem_singleton.mp hc) (by decide)

/-- The command of a line, and its authority. -/
theorem Proper.parts (ha : a.Proper) (ss : Session) :
    Sendable (words (commandPart a.com)) ∧ atoi (suffixPart a.com) = a.auth ∧
      commandPart a.text = commandPart a.com ∧ authority ss a.text = atoi (suffixPart a.com) := by
  obtain ⟨cut, hplain, hcom, -, hws⟩ := ha.com
  obtain ⟨hlo, hhi⟩ := ha.auth
  have htext : a.text = cut ++ backspace :: ([byte ' '] ++ toStr a.auth ++
      (lit " " ++ backspace :: lit " " ++ toStr a.auth)) := by
    rw [text, hcom]
    simp
  have hatoi := atoi_toStr (x := a.auth) (b := [byte ' ']) (t := []) hlo hhi
    (List.forall_mem_singleton.mpr (by decide)) (by simp)
  have hatoi' := atoi_toStr (x := a.auth) (b := [byte ' '])
    (t := lit " " ++ backspace :: lit " " ++ toStr a.auth) hlo hhi
    (List.forall_mem_singleton.mpr (by decide)) (by
      intro c hc
      obtain rfl : byte ' ' = c := by simpa [lit] using hc
      decide)
  rw [List.append_nil] at hatoi
  refine ⟨?_, ?_, ?_, ?_⟩
  · rw [hcom, commandPart_append_cons hplain]
    exact hws
  · rw [hcom, suffixPart_append_cons hplain]
    exact hatoi
  · rw [htext, commandPart_append_cons hplain, hcom, commandPart_append_cons hplain]
  · rw [htext, authority_append_cons _ hplain, hatoi', hcom, suffixPart_append_cons hplain]
    exact hatoi.symm

end LogAppend

/-- The thread that a write starts. -/
def LogAppend.of (ss : Session) (com : Str) : LogAppend :=
  ⟨ss.auth, com ++ backspace :: byte ' ' :: toStr ss.auth⟩

theorem LogAppend.proper_of {ss : Session} {com : Str} (h : Loggable ss com) : (of ss com).Proper := by
  refine ⟨⟨com, h.plain, rfl, h.ascii, ?_⟩, h.auth⟩
  rw [← commandPart_of_not_mem h.plain]
  exact h.write.sendable

/-- Its step is that of the write. -/
theorem LogAppend.step_of {ss : Session} {com : Str} (h : Loggable ss com) :
    writes.key (of ss com) = keyOf (words com) ∧
      writes.step (of ss com) = writeStep (words com) (toU8 ss.auth) := by
  have hcut : commandPart (of ss com).com = com := commandPart_append_cons h.plain _
  have hauth : atoi (suffixPart (of ss com).com) = ss.auth := ((proper_of h).parts ss).2.1
  constructor
  · change keyOf (words (commandPart (of ss com).com)) = _
    rw [hcut]
  · change writeStep (words (commandPart (of ss com).com)) (toU8 (atoi (suffixPart (of ss com).com))) = _
    rw [hcut, hauth]

/-- A line of a write of one key, as an operation. -/
theorem LogAppend.apply_of {ss : Session} {com k v : Str} (h : Loggable ss com)
    (hws : words com = [lit "make", k, v]) (σ : Str → Option Kv) : writes.apply (of ss com) σ =
      (writeStep [lit "make", k, v] (toU8 ss.auth) (σ k)).map (Function.update σ k) := by
  obtain ⟨hkey, hstep⟩ := step_of h
  have hk : keyOf [lit "make", k, v] = k := rfl
  rw [Keyed.apply, hkey, hstep, hws, hk]

/-- The file, when the threads have obtained the mutex in this order. -/
def logFile (as : List LogAppend) : Str := as.flatMap fun a => a.line ++ [10]

theorem splitOn_logFile (as : List LogAppend) :
    (logFile as).splitOn 10 = as.map LogAppend.line ++ [[]] := by
  induction as with
  | nil => rfl
  | cons a as ih =>
    rw [logFile, List.flatMap_cons, ← logFile, List.append_assoc, List.singleton_append,
      List.splitOn_append_cons_self_of_not_mem a.not_mem_line, ih]
    rfl

/-- The file falls apart into its lines. -/
theorem getLines_logFile (as : List LogAppend) : getLines (logFile as) = as.map LogAppend.line := by
  rw [getLines, splitOn_logFile, if_pos (by simp), List.dropLast_concat]

/-! ### Restoring -/

/-- **Restoring performs the writes of the lines.** -/
theorem restore_eq {as : List LogAppend} {s : Server} {ss : Session} {clock : ℕ → Int}
    {connected : Bool} {d : Int} (hd : 0 < d) (h : 28969 * d % (1020 * 1452) = 1)
    (has : ∀ a ∈ as, a.Proper) (hs : s.Calm) :
    (restore d ss clock connected (as.map LogAppend.line) s).map Server.entry
      = writes.run as s.entry := by
  induction as generalizing s with
  | nil => rfl
  | cons a as ih =>
    obtain ⟨ha, has⟩ := List.forall_mem_cons.mp has
    obtain ⟨hws, -, hcut, hauth⟩ := ha.parts ss
    have hsendable : Sendable (words (commandPart a.text)) := hcut ▸ hws
    rw [List.map_cons, restore, ha.decryptString_line hd h, Option.bind_some, Keyed.run]
    -- the line carries the words and the authority of the write it was made for
    have hstep : writes.step a (s.entry (writes.key a)) =
        writeStep (words (commandPart a.text)) (toU8 (authority ss a.text))
          (s.entry (keyOf (words (commandPart a.text)))) := by
      rw [hcut, hauth]
      rfl
    have hkey : writes.key a = keyOf (words (commandPart a.text)) := by
      rw [hcut]
      rfl
    rw [Keyed.apply, hstep]
    cases hx : scanAndSend s ss a.text (clock (as.map LogAppend.line).length) connected with
    | none =>
      cases hv : writeStep (words (commandPart a.text)) (toU8 (authority ss a.text))
          (s.entry (keyOf (words (commandPart a.text)))) with
      | none => rfl
      | some v =>
        obtain ⟨x, hx'⟩ := @Server.Calm.exists_scanAndSend s ss a.text
          (clock (as.map LogAppend.line).length) connected hs hsendable v hv
        rw [hx] at hx'
        exact absurd hx' (by simp)
    | some x =>
      obtain ⟨v, hv, hentry, hcalm, hsession, -⟩ := hs.scanAndSend_write hsendable hx
      rw [Option.bind_some, hv, Option.map_some, Option.bind_some, hsession, ih has hcalm, hentry,
        hkey]

/-! ### Runs -/

namespace LoggedServer

variable {s s' : LoggedServer}

/-- The file is the journal of the writes: with the lines behind it that are still to come, it rebuilds
the table. -/
structure Written (s : LoggedServer) : Prop where
  calm : s.server.Calm
  journal : ∃ written, s.log = logFile written ∧ (∀ a ∈ written ++ s.threads, a.Proper) ∧
    Journal.Faithful writes (fun _ => none) ⟨s.server.entry, written, s.threads⟩

theorem IsNew.written (h : s.IsNew) : Written s := by
  have hempty : s.server.entry = fun _ => none := funext h.empty
  refine ⟨⟨h.standalone, fun k n hn => ?_⟩, [], h.log, by simp [h.threads], ?_⟩
  · rw [h.empty k] at hn
    exact absurd hn (by simp)
  · rw [Journal.Faithful, hempty, h.threads]
    rfl

/-- A write starts a thread for its step. -/
theorem Written.command (h : Written s) {ss : Session} {com : Str} {t : Int} {connected : Bool}
    (hcom : Loggable ss com) (hstep : s.step (.command ss com t connected) = some s') :
    Written s' := by
  obtain ⟨written, hlog, hproper, hjournal⟩ := h.journal
  obtain ⟨x, hx, rfl⟩ := Option.map_eq_some_iff.mp hstep
  have hcut : commandPart com = com := commandPart_of_not_mem hcom.plain
  obtain ⟨v, hv, hentry, hcalm, -, hlogged⟩ :=
    h.calm.scanAndSend_write hcom.write.sendable hx
  have hauth : authority ss com = ss.auth := if_neg hcom.plain
  rw [hcut, hauth] at hv
  rw [hcut] at hentry
  rw [hcut, hauth, if_pos hcom.write.1] at hlogged
  obtain ⟨hkey, hwrite⟩ := LogAppend.step_of hcom
  have hthreads : x.log.toList.map (fun com => (⟨ss.auth, com⟩ : LogAppend))
      = [LogAppend.of ss com] := by
    rw [hlogged]
    rfl
  refine ⟨hcalm, written, hlog, ?_, hjournal.perform (o := LogAppend.of ss com) ⟨?_, rfl, ?_⟩⟩
  · intro b hb
    rw [hthreads, ← List.append_assoc, List.mem_append, List.mem_singleton] at hb
    rcases hb with hb | rfl
    · exact hproper b hb
    · exact LogAppend.proper_of hcom
  · rw [Keyed.apply, hkey, hwrite]
    change (writeStep (words com) (toU8 ss.auth) (s.server.entry (keyOf (words com)))).map _ = _
    rw [hv, hentry, Option.map_some]
  · exact congrArg (s.threads ++ ·) hthreads

/-- A thread enters its step, ahead of none about its key. -/
theorem Written.append (h : Written s) {index : ℕ} (hok : s.InOrder index)
    (hstep : s.step (.append index) = some s') : Written s' := by
  obtain ⟨written, hlog, hproper, hjournal⟩ := h.journal
  obtain ⟨a, ha, rfl⟩ := Option.map_eq_some_iff.mp hstep
  obtain ⟨hlt, hget⟩ := List.getElem?_eq_some_iff.mp ha
  have hsplit : s.threads = s.threads.take index ++ a :: s.threads.drop (index + 1) := by
    rw [← hget, List.cons_getElem_drop_succ, List.take_append_drop]
  refine ⟨h.calm, written ++ [a], ?_, ?_, hjournal.enter (o := a) ⟨rfl, rfl, _, _, hsplit, ?_, ?_⟩⟩
  · change s.log ++ (a.line ++ [10]) = logFile (written ++ [a])
    rw [hlog, logFile, logFile, List.flatMap_append, List.flatMap_singleton]
  · intro b hb
    apply hproper b
    rw [List.mem_append] at hb ⊢
    rcases hb with hb | hb
    · rcases List.mem_append.mp hb with hb | hb
      · exact Or.inl hb
      · rw [List.mem_singleton.mp hb, hsplit]
        exact Or.inr (by simp)
    · exact Or.inr (List.mem_of_mem_eraseIdx hb)
  · exact List.eraseIdx_eq_take_drop_succ s.threads index
  · exact fun b hb => hok a ha b hb

theorem Written.run (h : Written s) (hrun : Run (Writes InOrder) s s') : Written s' := by
  induction hrun with
  | refl => exact h
  | @tail s₁ s₂ e _ hok hstep ih =>
    cases e with
    | command ss com t connected => exact ih.command hok hstep
    | append index => exact ih.append hok hstep

/-- **The log rebuilds the table**, once all its threads have ended, if no thread overtakes an earlier
one whose line is about the same key. -/
theorem rebuilds_of_inOrder (hs : s.IsNew) (hrun : Run (Writes InOrder) s s')
    (hdone : s'.threads = []) : Rebuilds s' := by
  intro d ss clock connected r hd hmatch hr hempty
  obtain ⟨written, hlog, hproper, hjournal⟩ := (hs.written.run hrun).journal
  have hcalm : r.Calm := ⟨hr, fun k n hn => by
    rw [hempty k] at hn
    exact absurd hn (by simp)⟩
  have hentry : r.entry = fun _ => none := funext hempty
  have hrestore := @restore_eq written r ss clock connected d hd hmatch
    (fun a ha => hproper a (List.mem_append_left _ ha)) hcalm
  rw [hentry, hjournal.rebuilds hdone] at hrestore
  obtain ⟨r', hr', hsame⟩ := Option.map_eq_some_iff.mp hrestore
  refine ⟨r', ?_, fun k => congrFun hsame k⟩
  rw [hlog, getLines_logFile]
  exact hr'

/-! ### Two writes -/

/-- A server as it starts on port `8000`. -/
def start : LoggedServer := { server := { w := World.fresh 8000 } }

theorem isNew_start : start.IsNew := by
  refine ⟨⟨rfl, fun k => ?_⟩, fun _ => rfl, rfl, rfl⟩
  have hbounds := Hash.hashFunc_bounds k
  rw [notHere, Bool.or_eq_false_iff, decide_eq_false_iff_not, decide_eq_false_iff_not]
  change ¬ Hash.hashFunc k < 0 ∧ ¬ Hash.hashFunc k > (totalSlotNum : Int) - 1
  omega

/-- Two writes of a client with authority `0`. -/
def twoCommands (com com' : Str) : Option LoggedServer :=
  (start.step (.command {} com 0 true)).bind fun s => s.step (.command {} com' 0 true)

/-- Their threads obtain the mutex the other way round. -/
def crossed (com com' : Str) : Option LoggedServer :=
  (twoCommands com com').bind fun s => (s.step (.append 1)).bind fun s => s.step (.append 0)

theorem run_crossed {com com' : Str} (ok : LoggedServer → ℕ → Prop) (h : Loggable {} com)
    (h' : Loggable {} com') (hok : ∀ s, twoCommands com com' = some s → ok s 1)
    (hok' : ∀ s, ok s 0) (hs : crossed com com' = some s) : Run (Writes ok) start s := by
  obtain ⟨s₂, htwo, hs⟩ := Option.bind_eq_some_iff.mp hs
  obtain ⟨s₃, h₃, hs⟩ := Option.bind_eq_some_iff.mp hs
  obtain ⟨s₁, h₁, h₂⟩ := Option.bind_eq_some_iff.mp htwo
  have hfirst : Run (Writes ok) start s₁ :=
    (Run.refl start).tail (e := .command {} com 0 true) h h₁
  have hsecond : Run (Writes ok) start s₂ := hfirst.tail (e := .command {} com' 0 true) h' h₂
  exact (hsecond.tail (e := .append 1) (hok s₂ htwo) h₃).tail (e := .append 0) (hok' s₃) hs

theorem loggable_make {com k v : Str} (h : words com = [lit "make", k, v]) (hascii : IsAscii com)
    (hplain : backspace ∉ com) : Loggable {} com := by
  refine ⟨by decide, ⟨by rw [commandType_cons h]; rfl, fun word hword => ?_⟩, hascii, hplain⟩
  obtain rfl : lit "make" = word := by
    rw [h] at hword
    exact Option.some.inj hword
  decide

/-- Two keys. -/
theorem rebuilds_crossed : ∃ s, crossed (lit "make k a") (lit "make l b") = some s ∧
    s.server.w.h.findNode (lit "k") = some ⟨.string (lit "a"), -1, 0, false, 0, 0⟩ ∧ Rebuilds s := by
  obtain ⟨s, hs, hdone, hk⟩ : ∃ s, crossed (lit "make k a") (lit "make l b") = some s ∧
      s.threads = [] ∧
      s.server.w.h.findNode (lit "k") = some ⟨.string (lit "a"), -1, 0, false, 0, 0⟩ :=
    ⟨_, rfl, rfl, rfl⟩
  refine ⟨s, hs, hk, rebuilds_of_inOrder isNew_start (run_crossed InOrder ?_ ?_ ?_ ?_ hs) hdone⟩
  · exact loggable_make (k := lit "k") (v := lit "a") (by decide) (by decide) (by decide)
  · exact loggable_make (k := lit "l") (v := lit "b") (by decide) (by decide) (by decide)
  · intro s₂ htwo a ha b hb
    have hthreads : (twoCommands (lit "make k a") (lit "make l b")).map LoggedServer.threads
        = some [.of {} (lit "make k a"), .of {} (lit "make l b")] := rfl
    rw [htwo, Option.map_some, Option.some.injEq] at hthreads
    rw [hthreads] at ha hb
    obtain rfl := Option.some.inj ha
    obtain rfl := List.mem_singleton.mp hb
    decide
  · intro s a _ b hb
    exact absurd hb (by simp)

/-- **The log of two writes of one key.**  `make k a` is executed before `make k b`, and its thread
obtains the mutex after the other one: the log restores `a`, where the server holds `b`. -/
theorem not_rebuilds_crossed : ¬ ∀ s s' : LoggedServer, s.IsNew →
    Run (Writes fun _ _ => True) s s' → s'.threads = [] → Rebuilds s' := by
  intro h
  obtain ⟨s, hs, hdone, hlog, hk⟩ : ∃ s, crossed (lit "make k a") (lit "make k b") = some s ∧
      s.threads = [] ∧
      s.log = ([] ++ ((LogAppend.of {} (lit "make k b")).line ++ [10])) ++
        ((LogAppend.of {} (lit "make k a")).line ++ [10]) ∧
      s.server.w.h.findNode (lit "k") = some ⟨.string (lit "b"), -1, 0, false, 0, 0⟩ :=
    ⟨_, rfl, rfl, rfl, rfl⟩
  have ha : Loggable {} (lit "make k a") :=
    loggable_make (k := lit "k") (v := lit "a") (by decide) (by decide) (by decide)
  have hb : Loggable {} (lit "make k b") :=
    loggable_make (k := lit "k") (v := lit "b") (by decide) (by decide) (by decide)
  have hrun := run_crossed (fun _ _ => True) ha hb (fun _ _ => trivial) (fun _ => trivial) hs
  obtain ⟨r', hrestored, hsame⟩ := h start s isNew_start hrun hdone 409 {} (fun _ => 0) true
    start.server (by decide) (by decide) isNew_start.standalone isNew_start.empty
  -- the lines in the order in which the threads got the mutex
  have hfile : s.log = logFile [.of {} (lit "make k b"), .of {} (lit "make k a")] := by
    rw [hlog, List.nil_append, logFile, List.flatMap_cons, List.flatMap_singleton]
  have hproper : ∀ a ∈ [LogAppend.of {} (lit "make k b"), .of {} (lit "make k a")], a.Proper := by
    simp only [List.forall_mem_cons, List.not_mem_nil, IsEmpty.forall_iff, implies_true, and_true]
    exact ⟨LogAppend.proper_of hb, LogAppend.proper_of ha⟩
  have hwrites := @restore_eq _ start.server {} (fun _ => 0) true 409 (by decide) (by decide) hproper
    isNew_start.written.calm
  rw [← getLines_logFile, ← hfile, hrestored, Option.map_some] at hwrites
  have hstepb : writeStep [lit "make", lit "k", lit "b"] (toU8 0) (start.server.entry (lit "k"))
      = some (some ⟨.string (lit "b"), -1, 0, false, 0, 0⟩) := rfl
  have hstepa : writeStep [lit "make", lit "k", lit "a"] (toU8 0)
      (some ⟨.string (lit "b"), -1, 0, false, 0, 0⟩)
      = some (some ⟨.string (lit "a"), -1, 0, false, 0, 0⟩) := rfl
  have hrestores : (writes.run [.of {} (lit "make k b"), .of {} (lit "make k a")]
      start.server.entry).map (fun σ => (σ (lit "k")).map Kv.v) = some (some (.string (lit "a"))) := by
    rw [Keyed.run, LogAppend.apply_of (k := lit "k") (v := lit "b") hb (by decide), hstepb,
      Option.map_some, Option.bind_some, Keyed.run,
      LogAppend.apply_of (k := lit "k") (v := lit "a") ha (by decide), Function.update_self, hstepa,
      Option.map_some, Option.bind_some, Keyed.run, Option.map_some, Function.update_self]
    rfl
  rw [← hwrites, Option.map_some, Option.some.injEq] at hrestores
  change (r'.w.h.findNode (lit "k")).map Kv.v = some (.string (lit "a")) at hrestores
  rw [hsame, hk, Option.map_some, Option.some.injEq, Value.string.injEq] at hrestores
  exact absurd hrestores (by decide)

end LoggedServer

end MuseKv
