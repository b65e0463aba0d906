import MuseKv.Command.Equiv.Replay
import MuseKv.Server.Equiv.Forwarded

/-!
# What `scan_and_send` makes of a write

A write other than `expire` and `read` does one action under the key it names.  Unless its reply is
marked, `scan_and_send` answers it, logs it, and sends it on (`scanAndSend_write`).
-/

namespace MuseKv

open Kvstore Command

/-! ### The words of a write -/

namespace Command

/-- A text with a suffix is the command, the backspace and the suffix. -/
theorem commandPart_append_suffixPart {com : Str} (h : backspace ∈ com) :
    commandPart com ++ backspace :: suffixPart com = com := by
  rw [commandPart, suffixPart]
  cases hrest : com.dropWhile (· ≠ backspace) with
  | nil => exact absurd h (fun hmem => by simpa using List.dropWhile_eq_nil_iff.mp hrest _ hmem)
  | cons c rest =>
    have hc : c = backspace := by
      have hhead := List.head?_dropWhile_not (fun c => decide (c ≠ backspace)) com
      rw [hrest, List.head?_cons] at hhead
      simpa using hhead
    have happend := List.takeWhile_append_dropWhile (p := fun c => decide (c ≠ backspace)) (l := com)
    rwa [hrest, hc] at happend

/-- A suffix leaves the first word of a write alone. -/
theorem head?_words_commandPart {com word : Str} (h : (words com).head? = some word)
    (hword : backspace ∉ word) : (words (commandPart com)).head? = some word := by
  by_cases hcom : backspace ∈ com
  · rw [← commandPart_append_suffixPart hcom] at h
    exact head?_words_append (by decide) h hword
  · rwa [commandPart_of_not_mem hcom]

/-- The command of a write is one of those that are sent on. -/
theorem PlainWrite.head {com : Str} (h : PlainWrite com) :
    ∃ word ∈ writeWords, (words com).head? = some word := by
  have hall : ∀ row ∈ typeTable, row.2.2 = .write → row.1 ≠ lit "expire" → row.1 ≠ lit "read" →
      row.1 ∈ writeWords := by decide
  obtain ⟨hwrite, hother⟩ := h
  cases hws : words com with
  | nil =>
    rw [commandType, hws] at hwrite
    exact absurd hwrite (by decide)
  | cons word args =>
    obtain ⟨arity, hmem, -⟩ := lookup_eq_some (lookup_of_write hws hwrite)
    obtain ⟨hexpire, hread⟩ := hother word (by rw [hws, List.head?_cons]; rfl)
    exact ⟨word, hall _ hmem rfl hexpire hread, rfl⟩

/-- The command in front of a suffix can be sent on. -/
theorem PlainWrite.sendable {com : Str} (h : PlainWrite com) :
    Sendable (words (commandPart com)) := by
  have hclean : ∀ word ∈ writeWords, backspace ∉ word := by decide
  obtain ⟨word, hword, hhead⟩ := h.head
  intro word' hword'
  rw [head?_words_commandPart hhead (hclean word hword)] at hword'
  exact Option.some.inj hword' ▸ hword

/-- A command that can be sent on is no control word. -/
theorem Sendable.not_control {ws : List Str} (h : Sendable ws) :
    ∀ word ∈ ws.head?, word ∉ controlWords := by
  have hall : ∀ word ∈ writeWords, word ∉ controlWords := by decide
  exact fun word hword => hall word (h word hword)

/-- The reply of a write shows what its action shows. -/
theorem not_marked_of_shown {w : World} {ws : List Str} {auth : UInt8} {t : Int} {msg : Str}
    {w' : World} (hws : Sendable ws) (hhere : refused w.h ws = false)
    (hshown : ∀ x, shown ws auth t w.h = some x → ¬ x.Marked)
    (h : executeWords ws auth t w = some (msg, w')) : ¬ Marked msg := by
  intro hm
  obtain ⟨x, hx, hmarked⟩ := (reports_shown hws.not_control hhere h).marked_iff.mp hm
  exact hshown x hx hmarked

end Command

/-- **A write is executed, answered, logged and sent on**, if its reply is not marked. -/
theorem scanAndSend_write {s : Server} {ss : Session} {com : Str} {t : Int} {connected : Bool}
    {x : Scan} (hws : Sendable (words (commandPart com)))
    (hhere : refused s.w.h (words (commandPart com)) = false)
    (hreply : ∀ msg w', execute (commandPart com) (toU8 (authority ss com)) t s.w = some (msg, w') →
      ¬ Marked msg)
    (h : scanAndSend s ss com t connected = some x) :
    ∃ msg a w', keyResult (words (commandPart com)) (toU8 (authority ss com)) t
          (s.w.h.findNode (keyOf (words (commandPart com)))) = some (msg, a) ∧ ¬ Marked msg ∧
      (∀ k, w'.h.findNode k = if k = keyOf (words (commandPart com)) then
          a.run (s.w.h.findNode (keyOf (words (commandPart com)))) else s.w.h.findNode k) ∧
      w'.h.startNum = s.w.h.startNum ∧ w'.h.endNum = s.w.h.endNum ∧
      x = {
        server := { s with w := w' }
        session := ss
        send := .client msg
        log := if commandType com = .write then
            some (commandPart com ++ backspace :: byte ' ' :: toStr (authority ss com)) else none
        autoSend := if ss.autoSendYes && commandType com = .write && s.replicaNum ≠ 0 then
            some (commandPart com) else none } := by
  obtain ⟨⟨msg, w'⟩, hexec, hroute⟩ := Option.bind_eq_some_iff.mp h
  have hmsg := hreply msg w' hexec
  obtain ⟨a, hresult, hfind, hstart, hend⟩ := findNode_of_write hws hhere hexec
  rw [route_client hmsg] at hroute
  exact ⟨msg, a, w', hresult, hmsg, hfind, hstart, hend, (Option.some.inj hroute).symm⟩

end MuseKv
