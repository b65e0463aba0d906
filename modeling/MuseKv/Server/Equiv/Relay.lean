import MuseKv.Server.Equiv.Write

/-!
# What a write leaves of the sockets and the session

A write can be answered with a text from the table, and a text such as `" \b"` with a control word behind
it sets `scan_and_send` on the branch of that word.  Only the writes of two words are answered with a text,
so none of them gets to the socket that `replica_add` would connect (`reply_ne_magic`).  So whatever the
reply of a write, it connects no new socket, it sends on nothing but the write, and nothing at all in a
session that is marked (`scanAndSend_relayed`).
-/

namespace MuseKv

open Kvstore Command

namespace Command

/-- The first words of the commands of type `Write`. -/
def relayedWords : List Str := lit "expire" :: lit "read" :: writeWords

/-- A command that can be sent on to the replicas: it starts like a write and has no suffix. -/
def Relayed (com : Str) : Prop := backspace ∉ com ∧ ∃ word ∈ relayedWords, (words com).head? = some word

theorem not_control_of_relayed {word : Str} (h : word ∈ relayedWords) : word ∉ controlWords := by
  have hall : ∀ word ∈ relayedWords, word ∉ controlWords := by decide
  exact hall word h

theorem not_mem_commandPart (com : Str) : backspace ∉ commandPart com := by
  intro h
  have hne := List.mem_takeWhile_imp h
  simp at hne

/-- **What is left of a write without its suffix** can be sent on. -/
theorem relayed_commandPart {com : Str} (h : commandType com = .write) : Relayed (commandPart com) := by
  have hall : ∀ row ∈ typeTable, row.2.2 = .write → row.1 ∈ relayedWords := by decide
  have hclean : ∀ word ∈ relayedWords, backspace ∉ word := by decide
  refine ⟨not_mem_commandPart com, ?_⟩
  cases hws : words com with
  | nil =>
    rw [commandType, hws] at h
    exact absurd h (by decide)
  | cons word args =>
    obtain ⟨arity, hmem, -⟩ := lookup_eq_some (lookup_of_write hws h)
    have hword := hall _ hmem rfl
    have hhead : (words com).head? = some word := by rw [hws, List.head?_cons]
    exact ⟨word, hword, head?_words_commandPart hhead (hclean word hword)⟩

/-! ### Replies that are a text -/

namespace Quote

/-- A command that is never answered with a text alone. -/
def Textless (quote : Quote) : Prop := ∀ c node x, quote c node ≠ some (.text x)

variable {c : Call} {node : Option Kv} {x : Str}

theorem live_ne_text {body : Kv → Option Shown} (h : ∀ n, body n ≠ some (.text x)) :
    live c node body ≠ some (.text x) := by
  unfold live
  cases node with
  | none => simp
  | some n =>
    show (if n.isExpired c.currTime then some (Shown.name c.k) else body n) ≠ some (.text x)
    split_ifs
    · simp
    · exact h n

theorem permitted_ne_text {level : UInt8} {body : Option Shown} (h : body ≠ some (.text x)) :
    permitted c level body ≠ some (.text x) := by
  unfold permitted
  split_ifs
  · simp
  · exact h

theorem textless_alive : Textless alive := fun _ _ _ => live_ne_text fun _ => by simp

theorem textless_present : Textless present := by
  intro c node x
  unfold present
  cases node with
  | none => simp
  | some n => simp

theorem textless_expire : Textless expire := by
  intro c node x
  unfold expire withInt
  split
  · exact textless_alive c node x
  · simp

theorem textless_serase : Textless serase := by
  intro c node x
  unfold serase onSet
  refine live_ne_text fun n => ?_
  split
  · apply permitted_ne_text
    dsimp only
    split_ifs
    · simp
    · simp
  · simp

theorem textless_herase : Textless herase := by
  intro c node x
  unfold herase onHashmap
  refine live_ne_text fun n => ?_
  split
  · apply permitted_ne_text
    dsimp only
    split_ifs
    · simp
    · simp
    · simp
  · simp

end Quote

/-- The writes that are answered with a text. -/
def poppingWords : List Str := [lit "lpop", lit "rpop", lit "spop"]

/-- **Every other write is never answered with a text.** -/
theorem textless_of_lookup {word : Str} {quote : Quote} (hword : word ∈ relayedWords)
    (hpop : word ∉ poppingWords) (h : quotes.lookup word = some quote) : quote.Textless := by
  have hall : ∀ q ∈ quotes, q.1 ∉ relayedWords ∨ q.1 ∈ poppingWords ∨ q.2.Textless := by
    unfold quotes
    simp only [List.forall_mem_cons, List.not_mem_nil, IsEmpty.forall_iff, implies_true, and_true]
    have hpresent := Quote.textless_present
    have halive := Quote.textless_alive
    exact ⟨.inl (by decide), .inr (.inr hpresent), .inr (.inr halive), .inr (.inr halive),
      .inr (.inl (by decide)), .inr (.inl (by decide)), .inl (by decide), .inr (.inr halive),
      .inr (.inr halive), .inr (.inr halive), .inr (.inl (by decide)), .inr (.inr Quote.textless_serase),
      .inl (by decide), .inr (.inr halive), .inl (by decide), .inl (by decide), .inl (by decide),
      .inr (.inr Quote.textless_herase), .inr (.inr hpresent), .inr (.inr hpresent),
      .inr (.inr Quote.textless_expire), .inl (by decide)⟩
  obtain ⟨l₁, l₂, hsplit, -⟩ := List.lookup_eq_some_iff.mp h
  rcases hall (word, quote) (by rw [hsplit]; simp) with hnot | hmem | htextless
  · exact absurd hword hnot
  · exact absurd hmem hpop
  · exact htextless

/-- A write of three words and more shows no text. -/
theorem shown_ne_text {word : Str} {args : List Str} {auth : UInt8} {t : Int} {h : Hash} {x : Str}
    (hword : word ∈ relayedWords) (hlen : 2 ≤ args.length) :
    shown (word :: args) auth t h ≠ some (.text x) := by
  have hpopping : (dispatch.filter fun row => row.1 ∈ poppingWords).map (fun row => row.2.1)
      = [.exactly 2, .exactly 2, .exactly 2] := rfl
  intro hx
  obtain ⟨handler, hlookup, hx⟩ := Option.bind_eq_some_iff.mp hx
  obtain ⟨arity, hmem, hholds⟩ := lookup_eq_some hlookup
  cases handler with
  | keyed f =>
    obtain ⟨quote, hquote, hx⟩ := Option.bind_eq_some_iff.mp hx
    refine textless_of_lookup hword (fun hpop => ?_) hquote _ _ x hx
    have harity : arity ∈ (dispatch.filter fun row => row.1 ∈ poppingWords).map fun row => row.2.1 :=
      List.mem_map.mpr ⟨_, List.mem_filter.mpr ⟨hmem, decide_eq_true hpop⟩, rfl⟩
    rw [hpopping] at harity
    obtain rfl : arity = .exactly 2 := by simpa using harity
    rw [Arity.holds, beq_iff_eq] at hholds
    omega
  | keys =>
    rcases eq_keys_of_lookup hlookup with rfl | rfl
    · exact absurd hword (by decide)
    · exact absurd hword (by decide)
  | save => simp at hx
  | read => simp at hx

/-- **The reply to a write of three words and more** is no control reply. -/
theorem reply_ne_magic {word : Str} {ws : List Str} {auth : UInt8} {t : Int} {w w' : World} {msg : Str}
    (hhead : ws.head? = some word) (hword : word ∈ relayedWords) (hlen : 3 ≤ ws.length)
    (h : executeWords ws auth t w = some (msg, w')) : ∀ c ∈ controlWords, msg ≠ magic c := by
  intro c hc
  have hctl : ∀ word ∈ ws.head?, word ∉ controlWords := by
    intro word' hword'
    rw [hhead, Option.mem_some_iff] at hword'
    exact hword' ▸ not_control_of_relayed hword
  cases href : refused w.h ws with
  | true =>
    obtain ⟨k, -, rfl, -⟩ := executeWords_refused hctl href h
    exact ne_magic_of_hashval (List.infix_append' [] _ _) hc
  | false =>
    have hreports := reports_shown hctl href h
    rintro rfl
    cases ws with
    | nil => simp at hlen
    | cons word' args =>
      obtain rfl : word' = word := Option.some.inj hhead
      generalize hshown : shown (word' :: args) auth t w.h = o at hreports
      cases hreports with
      | plain hplain => exact hplain (Or.inr ⟨c, hc, rfl⟩)
      | name _ hmagic => exact hmagic c hc rfl
      | text => exact shown_ne_text hword (by rw [List.length_cons] at hlen; omega) hshown

end Command

/-! ### What the branches leave -/

/-- A server that has no other connected socket than another one. -/
def KeepsSockets (s s' : Server) : Prop :=
  ∀ (i : ℕ) (a : Peer), s'.replicaSock[i]? = some (some a) → s.replicaSock[i]? = some (some a)

theorem keepsSockets_of_eq {s s' : Server} (h : s'.replicaSock = s.replicaSock) : KeepsSockets s s' := by
  intro i a hi
  rwa [h] at hi

/-- The sockets of a new number of replicas are not connected. -/
theorem keepsSockets_of_replicate {s s' : Server} {n : ℕ} (h : s'.replicaSock = List.replicate n none) :
    KeepsSockets s s' := by
  intro i a hi
  rw [h] at hi
  have hnone := List.eq_of_mem_replicate (List.mem_of_getElem? hi)
  simp at hnone

/-- What a command leaves that can be sent on. -/
structure Leaves (s : Server) (ss : Session) (com : Str) (x : Scan) : Prop where
  sockets : KeepsSockets s x.server
  /-- A marked session stays marked. -/
  marked : ss.autoSendYes = false → x.session.autoSendYes = false
  /-- A marked session sends nothing on. -/
  silent : ss.autoSendYes = false → x.autoSend = none
  /-- What is sent on is the command. -/
  autoSend : ∀ com', x.autoSend = some com' → com' = commandPart com

/-- A branch that sends nothing on. -/
theorem leaves_of_none {s : Server} {ss : Session} {com : Str} {x : Scan}
    (hsock : KeepsSockets s x.server) (hmark : ss.autoSendYes = false → x.session.autoSendYes = false)
    (hsend : x.autoSend = none) : Leaves s ss com x :=
  ⟨hsock, hmark, fun _ => hsend, fun com' h => by simp [hsend] at h⟩

/-- **What a write leaves**, whatever its reply. -/
theorem scanAndSend_relayed {s : Server} {ss : Session} {com : Str} {t : Int} {connected : Bool}
    {x : Scan} (hcom : Relayed (commandPart com)) (h : scanAndSend s ss com t connected = some x) :
    Leaves s ss com x := by
  obtain ⟨⟨msg, w'⟩, hexec, hroute⟩ := Option.bind_eq_some_iff.mp h
  obtain ⟨-, word, hword, hhead⟩ := hcom
  have hrouted := routed hroute
  dsimp only at hrouted
  cases hrouted with
  | clust hs =>
    refine leaves_of_none (keepsSockets_of_eq ?_) id rfl
    obtain ⟨_, _, -, -, ⟨-, _, _, -, -, heq⟩ | ⟨-, heq⟩⟩ := Server.clusterConnect_eq_some hs
    · rw [heq]
    · rw [heq]
  | myinfo hs =>
    refine leaves_of_none (keepsSockets_of_eq ?_) id rfl
    obtain ⟨_, _, -, -, heq⟩ := Server.hashReset_eq_some hs
    rw [heq]
  | replicanumber hs =>
    obtain ⟨arg, -, -, heq⟩ := Server.setReplicaNum_eq_some hs
    refine leaves_of_none (keepsSockets_of_replicate (n := (atoi arg - 1).toNat) ?_) id rfl
    rw [heq]
  | replica hs =>
    -- a line with a host and a port is no write that can be answered so
    refine leaves_of_none (keepsSockets_of_eq ?_) id rfl
    rcases Server.replicaAdd_eq_some hs with ⟨-, ip, port, -, hport, -⟩ | ⟨-, -, heq⟩
    · have hlen : 3 ≤ (words (commandPart com)).length := (List.getElem?_eq_some_iff.mp hport).1
      exact absurd rfl (reply_ne_magic hhead hword hlen hexec _ (by decide))
    · rw [heq]
  | replicaaccept => exact leaves_of_none (keepsSockets_of_eq rfl) (fun _ => rfl) rfl
  | reply hm =>
    -- a reply to the client leaves the server as it is, apart from its table
    refine ⟨keepsSockets_of_eq rfl, id, fun hmark => ?_, fun com' hcom' => ?_⟩
    · simp [hmark]
    · dsimp only at hcom'
      split_ifs at hcom'
      exact (Option.some.inj hcom').symm
  | _ => exact leaves_of_none (keepsSockets_of_eq rfl) id rfl

end MuseKv
