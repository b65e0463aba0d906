import MuseKv.Client.Recover
import MuseKv.Server.Equiv.Framing
import MuseKv.Server.Equiv.Log

/-!
# What `recover` does with a file

A file of commands is executed as it stands, with the authority of the session where a line does not carry
its own (`taskClient_performed`).  What is printed for a line is its reply exactly if the reply fits the
eight bytes that are cleared, or no earlier one was longer (**`replays`**); otherwise the end of an earlier
reply follows.
-/

namespace MuseKv.Recover

open Kvstore Command Serving

variable {buf msg : Str} {ms msgs : List Str}

/-! ### The buffer -/

/-- Behind its first eight bytes, a buffer is zero from the end of the longest text on that it held. -/
structure Holds (buf : Str) (ms : List Str) : Prop where
  length : buf.length = 1024
  zero_iff : ∀ n, 8 ≤ n → n < 1024 → (buf[n]? = some 0 ↔ ∀ m ∈ ms, m.length ≤ n)

theorem getElem?_clear {n : ℕ} :
    (clear buf)[n]? = if n < 8 then some 0 else buf[n]? := by
  rw [clear, List.getElem?_append, List.length_replicate]
  split_ifs with h
  · rw [List.getElem?_replicate, if_pos h]
  · rw [List.getElem?_drop, Nat.add_sub_cancel' (not_lt.mp h)]

theorem length_clear (hlen : buf.length = 1024) : (clear buf).length = 1024 := by
  rw [clear, List.length_append, List.length_replicate, List.length_drop, hlen]

theorem length_fill (hlen : buf.length = 1024) (hmsg : msg.length < 1024) :
    (fill buf msg).length = 1024 := by
  rw [fill, List.length_append, List.length_drop, hlen]
  omega

theorem getElem?_fill {n : ℕ} : (fill buf msg)[n]? = if n < msg.length then msg[n]? else buf[n]? := by
  rw [fill, List.getElem?_append]
  split_ifs with h
  · rfl
  · rw [List.getElem?_drop, Nat.add_sub_cancel' (not_lt.mp h)]

theorem holds_start (hmsg : msg.length < 1024) (h0 : (0 : UInt8) ∉ msg) : Holds (startBuf msg) [msg] := by
  refine ⟨?_, fun n _ hn => ?_⟩
  · rw [startBuf, List.length_append, List.length_replicate]
    omega
  · rw [startBuf, List.getElem?_append, List.forall_mem_singleton]
    split_ifs with h
    · refine iff_of_false (fun heq => h0 (List.mem_of_getElem? heq)) (not_le.mpr h)
    · rw [List.getElem?_replicate, if_pos (by omega)]
      exact iff_of_true rfl (not_lt.mp h)

/-- **A reply** is one more text that the buffer held. -/
theorem Holds.receive (h : Holds buf ms) (hmsg : msg.length < 1024) (h0 : (0 : UInt8) ∉ msg) :
    Holds (fill (clear buf) msg) (ms ++ [msg]) := by
  refine ⟨length_fill (length_clear h.length) hmsg, fun n hn hlt => ?_⟩
  rw [getElem?_fill, getElem?_clear, if_neg (by omega : ¬n < 8), List.forall_mem_append,
    List.forall_mem_singleton]
  split_ifs with hin
  · refine iff_of_false (fun heq => h0 (List.mem_of_getElem? heq)) fun hall => ?_
    exact absurd hall.2 (not_le.mpr hin)
  · rw [h.zero_iff n hn hlt]
    exact ⟨fun hall => ⟨hall, not_lt.mp hin⟩, fun hall => hall.1⟩

/-- **What is printed is the reply** if it fits the bytes that were cleared, or covers what was there. -/
theorem Holds.printed_iff (h : Holds buf ms) (hmsg : msg.length < 1024) (h0 : (0 : UInt8) ∉ msg) :
    cString (fill (clear buf) msg) = msg ↔ msg.length < 8 ∨ ∀ m ∈ ms, m.length ≤ msg.length := by
  rw [fill, cString_append h0, List.append_right_eq_self]
  have hhead : ((clear buf).drop msg.length).head? =
      if msg.length < 8 then some 0 else buf[msg.length]? := by
    rw [List.head?_drop, getElem?_clear]
  have hzero : cString ((clear buf).drop msg.length) = [] ↔
      ((clear buf).drop msg.length).head? = some 0 := by
    have hne : (clear buf).drop msg.length ≠ [] := by
      rw [Ne, List.drop_eq_nil_iff, length_clear h.length]
      omega
    obtain ⟨c, t, hct⟩ := List.exists_cons_of_ne_nil hne
    rw [hct, cString, List.head?_cons, List.takeWhile_cons]
    by_cases hc : c = 0
    · simp [hc]
    · simp [hc]
  rw [hzero, hhead]
  split_ifs with hshort
  · exact iff_of_true rfl (Or.inl hshort)
  · rw [h.zero_iff _ (not_lt.mp hshort) hmsg, or_iff_right hshort]

/-- **The prints of a run.** -/
theorem prints_iff (h : Holds buf ms) (hmsgs : ∀ m ∈ msgs, m.length < 1024 ∧ (0 : UInt8) ∉ m) {i : ℕ}
    (hi : msgs[i]? = some msg) : (prints buf msgs)[i]? = some msg ↔
      msg.length < 8 ∨ ∀ m ∈ ms ++ msgs.take i, m.length ≤ msg.length := by
  induction msgs generalizing buf ms i with
  | nil => exact absurd hi (by simp)
  | cons m msgs ih =>
    obtain ⟨⟨hlen, h0⟩, hmsgs⟩ := List.forall_mem_cons.mp hmsgs
    rw [prints]
    cases i with
    | zero =>
      obtain rfl := Option.some.inj hi
      rw [List.getElem?_cons_zero, Option.some.injEq, h.printed_iff hlen h0, List.take_zero,
        List.append_nil]
    | succ i =>
      rw [List.getElem?_cons_succ] at hi ⊢
      rw [ih (h.receive hlen h0) hmsgs hi, List.take_succ_cons, List.append_assoc,
        List.singleton_append]

theorem length_prints (buf : Str) (msgs : List Str) : (prints buf msgs).length = msgs.length := by
  induction msgs generalizing buf with
  | nil => rfl
  | cons msg msgs ih => rw [prints, List.length_cons, ih, List.length_cons]

/-! ### The commands -/

variable {memory : Str} {clock : ℕ → Int} {lines replies : List Str} {w' : World} {r : Task}

/-- One line is executed, and its reply is printed. -/
theorem sendLine_eq {lr : Str} {t : Int} (hlr : Arrives lr)
    (hexec : execute (commandPart lr) (toU8 (authority r.session lr)) t r.server.w = some (msg, w'))
    (hmsg : Answerable msg) :
    sendLine memory t r lr = some ⟨{ r.server with w := w' }, r.session, fill (clear r.buf) msg,
      r.printed ++ [cString (fill (clear r.buf) msg)]⟩ := by
  have hrec : received memory lr = lr := received_short hlr.text hlr.whole
  have hscan : scanAndSend r.server r.session lr t true =
      route { r.server with w := w' } r.session lr true msg := by
    rw [scanAndSend, hexec, Option.bind_some]
  rw [sendLine, hrec, if_neg (by simp [hlr.sent, hlr.command]), hscan, route_client hmsg.unmarked,
    Option.bind_some]
  dsimp only
  rw [if_neg hmsg.sent, List.take_of_length_le hmsg.whole.le]

/-- **The lines are executed one after another**, each with the authority behind its backspace, or else that
of the session. -/
theorem taskClient_performed (hlines : ∀ lr ∈ lines, Arrives lr)
    (hrun : runAll (performed r.session clock lines) r.server.w = some (replies, w'))
    (hreplies : ∀ m ∈ replies, Answerable m) :
    ∃ buf, taskClient memory clock lines r = some ⟨{ r.server with w := w' }, r.session, buf,
      r.printed ++ prints r.buf replies⟩ := by
  induction lines generalizing r replies with
  | nil =>
    obtain ⟨rfl, rfl⟩ := Prod.mk.inj (Option.some.inj hrun)
    exact ⟨r.buf, by rw [taskClient, prints, List.append_nil]⟩
  | cons lr lines ih =>
    obtain ⟨hlr, hlines⟩ := List.forall_mem_cons.mp hlines
    obtain ⟨⟨msg, w₁⟩, hexec, hrun⟩ := Option.bind_eq_some_iff.mp hrun
    obtain ⟨⟨msgs, w₂⟩, hrest, heq⟩ := Option.map_eq_some_iff.mp hrun
    obtain ⟨rfl, rfl⟩ := Prod.mk.inj heq
    obtain ⟨hmsg, hmsgs⟩ := List.forall_mem_cons.mp hreplies
    rw [taskClient, sendLine_eq hlr hexec hmsg, Option.bind_some, prints]
    obtain ⟨buf, hbuf⟩ := ih (r := ⟨{ r.server with w := w₁ }, r.session, fill (clear r.buf) msg,
      r.printed ++ [cString (fill (clear r.buf) msg)]⟩) hlines hrest hmsgs
    exact ⟨buf, by rw [hbuf, List.append_assoc, List.singleton_append]⟩

theorem Line.arrives {lr : Str} (h : Line lr) : Arrives lr := ⟨h.sent, h.whole, h.text.1, h.command⟩

/-- Lines without a backspace have the authority of the session. -/
theorem performed_eq_requests {ss : Session} (hlines : ∀ lr ∈ lines, Line lr) :
    performed ss clock lines = requests ss.auth clock lines := by
  induction lines with
  | nil => rfl
  | cons lr lines ih =>
    obtain ⟨hlr, hlines⟩ := List.forall_mem_cons.mp hlines
    rw [performed, requests, ih hlines, commandPart_of_not_mem hlr.text.2, authority,
      if_neg hlr.text.2]

/-- **`recover` replays a file.**  Lines that arrive as they stand and whose replies do are executed as a
run of commands with the authority of the session; a line for each is printed, which is the reply exactly
if that is shorter than eight bytes, or no reply before it, that to the handshake included, was longer. -/
theorem replays {s : Server} {ss : Session} {m₀ : Str} (hlines : ∀ lr ∈ lines, Line lr)
    (hrun : runAll (requests ss.auth clock lines) s.w = some (replies, w'))
    (hreplies : ∀ m ∈ replies, Answerable m) (hm₀ : m₀.length < 1024) (h0 : (0 : UInt8) ∉ m₀) :
    ∃ r', taskClient memory clock lines ⟨s, ss, startBuf m₀, []⟩ = some r' ∧
      r'.server = { s with w := w' } ∧ r'.session = ss ∧ r'.printed.length = replies.length ∧
      ∀ i msg, replies[i]? = some msg → (r'.printed[i]? = some msg ↔
        msg.length < 8 ∨ ∀ m ∈ m₀ :: replies.take i, m.length ≤ msg.length) := by
  rw [← performed_eq_requests hlines] at hrun
  obtain ⟨buf, htask⟩ : ∃ buf, taskClient memory clock lines ⟨s, ss, startBuf m₀, []⟩ = some _ :=
    taskClient_performed (fun lr hlr => (hlines lr hlr).arrives) hrun hreplies
  refine ⟨_, htask, rfl, rfl, ?_, fun i msg hi => ?_⟩
  · rw [List.nil_append, length_prints]
  · dsimp only
    rw [List.nil_append, prints_iff (holds_start hm₀ h0)
      (fun m hm => ⟨(hreplies m hm).whole, (hreplies m hm).text⟩) hi]
    rfl

/-- A key is read, made, and read again. -/
def readMakeRead : List Str := [lit "get k", lit "make k 12345678", lit "get k"]

/-- The end of the first reply is printed behind the third one. -/
theorem replays_readMakeRead : ∃ r', taskClient [] (fun _ => 0) readMakeRead
      ⟨{ w := World.fresh 8000 }, {}, startBuf (lit "0"), []⟩ = some r' ∧
    r'.printed[1]? = some (lit "OK!") ∧ r'.printed[2]? ≠ some (lit "12345678") := by
  have hlines : ∀ lr ∈ readMakeRead, Line lr := by
    simp only [readMakeRead, List.forall_mem_cons, List.not_mem_nil, IsEmpty.forall_iff,
      implies_true, and_true]
    exact ⟨⟨by decide, by decide, by decide, by decide⟩, ⟨by decide, by decide, by decide, by decide⟩,
      by decide, by decide, by decide, by decide⟩
  obtain ⟨w', hrun⟩ : ∃ w', runAll (requests 0 (fun _ => 0) readMakeRead) (World.fresh 8000) =
      some ([lit "ERROR : NO SUCH KEY (k)", lit "OK!", lit "12345678"], w') := ⟨_, rfl⟩
  have hreplies : ∀ m ∈ [lit "ERROR : NO SUCH KEY (k)", lit "OK!", lit "12345678"], Answerable m := by
    simp only [List.forall_mem_cons, List.not_mem_nil, IsEmpty.forall_iff, implies_true, and_true]
    exact ⟨⟨by decide, by decide, by decide, not_marked (by decide) (by decide)⟩,
      ⟨by decide, by decide, by decide, not_marked (by decide) (by decide)⟩,
      by decide, by decide, by decide, not_marked (by decide) (by decide)⟩
  obtain ⟨r', htask, -, -, -, hprints⟩ : ∃ r', taskClient [] (fun _ => 0) readMakeRead
      ⟨{ w := World.fresh 8000 }, {}, startBuf (lit "0"), []⟩ = some r' ∧ _ :=
    replays hlines hrun hreplies (by decide) (by decide)
  refine ⟨r', htask, (hprints 1 _ rfl).mpr (Or.inl (by decide)), fun hprinted => ?_⟩
  exact absurd ((hprints 2 _ rfl).mp hprinted) (by decide)

end MuseKv.Recover
