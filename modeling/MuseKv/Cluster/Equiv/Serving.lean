import MuseKv.Cluster.Equiv.OneStore
import MuseKv.General.RealTime

/-!
# A cluster answers its clients like one store

While a thread waits for a peer, its command or the reply to it is the one thing on the connection
(`Carries`), so the thread receives its own reply.  `Sim` holds of every orderly run: the nodes hold one
store together, and each command is executed once, by the owner of its key, as that store executes it.

* `Sim.next`: a step keeps this, and completes at most one command.
* **`answersLikeOneStore`**: the replies are those of one store that executes the commands one after another, in
  an order that respects real time.
-/

namespace MuseKv

open General Kvstore Command

/-- A connection with nothing on it. -/
structure PeerLink.Idle {ι : Type} (l : PeerLink ι) : Prop where
  requests : l.requests = []
  inHand : l.inHand = []
  replies : l.replies = []

namespace Serving

open Distribute

variable {ι : Type} [DecidableEq ι] {cfg : Config} {i : ℕ} {client : ι → ClientCom cfg.length}
  {s s' : Serving ι cfg.length} {w : World}

/-! ### Connections -/

/-- A connection with one command on it, or the reply to one. -/
inductive Carries {n : ℕ} (c : ClientCom n) (r : ι) (l : PeerLink ι) : Prop
  | request (h : l.requests = [(r, forwarded c.session c.com)]) (hh : l.inHand = [])
      (hr : l.replies = [])
  | inHand (hq : l.requests = []) (h : l.inHand = [(r, forwarded c.session c.com)])
      (hr : l.replies = [])
  | reply {msg : Str} (hq : l.requests = []) (hh : l.inHand = []) (h : l.replies = [(r, msg)])
      (hmsg : Answerable msg)

omit [DecidableEq ι] in
theorem setLink_links {n : ℕ} (s : Serving ι n) (j c j' c' : Fin n) (l : PeerLink ι) :
    (s.setLink j c l).links j' c' = if j' = j ∧ c' = c then l else s.links j' c' := by
  change Function.update s.links j (Function.update (s.links j) c l) j' c' = _
  by_cases hj : j' = j
  · subst hj
    by_cases hc : c' = c
    · subst hc
      rw [if_pos ⟨rfl, rfl⟩, Function.update_self, Function.update_self]
    · rw [if_neg fun h => hc h.2, Function.update_self, Function.update_of_ne hc]
  · rw [if_neg fun h => hj h.1, Function.update_of_ne hj]

theorem reply_of_waiting {r : ι} {c : Fin cfg.length} (h : s.stand r = .waiting c) :
    reply client s r = (s.links (client r).node c).replies.lookup r := by
  unfold reply
  rw [h]

theorem reply_of_answered {r : ι} {msg : Str} (h : s.stand r = .answered msg) :
    reply client s r = some msg := by
  unfold reply
  rw [h]

theorem reply_of_unsent {r : ι} (h : s.stand r = .unsent) : reply client s r = none := by
  unfold reply
  rw [h]

/-- The reply to a command depends on where it stands, and on the connection it waits for. -/
theorem reply_congr {r : ι} (hstand : s'.stand r = s.stand r)
    (hlinks : ∀ c, s.stand r = .waiting c →
      (s'.links (client r).node c).replies = (s.links (client r).node c).replies) :
    reply client s' r = reply client s r := by
  unfold reply
  rw [hstand]
  cases hr : s.stand r with
  | unsent => rfl
  | answered msg => rfl
  | waiting c => exact congrArg (List.lookup r) (hlinks c hr)

/-- What does not touch the replies on a connection leaves the replies that are made. -/
theorem reply_setLink {j c : Fin cfg.length} {l : PeerLink ι}
    (h : l.replies = (s.links j c).replies) : reply client (s.setLink j c l) = reply client s := by
  funext r
  refine reply_congr rfl fun c' _ => ?_
  rw [setLink_links]
  split_ifs with hlink
  · rw [h, hlink.1, hlink.2]
  · rfl

theorem eq_of_lookup_singleton {r r' : ι} {x x' : Str} (h : [(r', x')].lookup r = some x) :
    r = r' ∧ x = x' := by
  rw [List.lookup_cons] at h
  by_cases hr : r = r'
  · subst hr
    rw [beq_self_eq_true] at h
    exact ⟨rfl, (Option.some.inj h).symm⟩
  · rw [beq_false_of_ne hr] at h
    exact absurd h (by simp)

/-- The nodes hold the entries of a store, and no connection is used by two commands. -/
structure Sim (cfg : Config) (i : ℕ) (client : ι → ClientCom cfg.length) (s : Serving ι cfg.length)
    (w : World) : Prop where
  informed : ∀ d : Fin cfg.length, Informed cfg i d (s.servers d) (List.range cfg.length)
  merged : Merged s.servers w
  single : ∀ r r' c, s.stand r = .waiting c → s.stand r' = .waiting c →
    (client r).node = (client r').node → r = r'
  carries : ∀ r c, s.stand r = .waiting c → Carries (client r) r (s.links (client r).node c) ∧
    refused (s.servers c).w.h (words (client r).com) = false
  free : ∀ j c, (∀ r, s.stand r = .waiting c → (client r).node ≠ j) → (s.links j c).Idle

omit [DecidableEq ι] in
/-- What is on a connection belongs to a thread that waits. -/
theorem Sim.waits (h : Sim cfg i client s w) {j c : Fin cfg.length}
    (hbusy : ¬ (s.links j c).Idle) :
    ∃ r, s.stand r = .waiting c ∧ (client r).node = j ∧ Carries (client r) r (s.links j c) ∧
      refused (s.servers c).w.h (words (client r).com) = false := by
  by_contra hno
  refine hbusy (h.free j c fun r hr hnode => hno ⟨r, hr, hnode, ?_⟩)
  have hcarries := h.carries r c hr
  rwa [hnode] at hcarries

omit [DecidableEq ι] in
theorem Sim.eq_of_link (h : Sim cfg i client s w) {r r' : ι} {c c' : Fin cfg.length}
    (hr : s.stand r = .waiting c) (hr' : s.stand r' = .waiting c')
    (hlink : (client r').node = (client r).node ∧ c' = c) : r' = r := by
  obtain ⟨hnode, rfl⟩ := hlink
  exact h.single r' r c' hr' hr hnode

/-- The connection of a thread has nothing to do with the replies to other commands. -/
theorem Sim.reply_of_ne (h : Sim cfg i client s w) {r r' : ι} {c : Fin cfg.length}
    (hr : s.stand r = .waiting c) (hne : r' ≠ r) (hstand : s'.stand r' = s.stand r')
    (hlinks : ∀ j' c', ¬ (j' = (client r).node ∧ c' = c) → s'.links j' c' = s.links j' c') :
    reply client s' r' = reply client s r' :=
  reply_congr hstand fun _ hr' => by rw [hlinks _ _ fun hlink => hne (h.eq_of_link hr hr' hlink)]

/-- A command that does not wait any more leaves the others where they stand. -/
theorem waiting_of_update {r r' : ι} {c : Fin cfg.length} {p : Stand cfg.length}
    (hp : ∀ c, p ≠ .waiting c) (h : Function.update s.stand r p r' = .waiting c) :
    r' ≠ r ∧ s.stand r' = .waiting c := by
  by_cases hr : r' = r
  · rw [hr, Function.update_self] at h
    exact absurd h (hp c)
  · rw [Function.update_of_ne hr] at h
    exact ⟨hr, h⟩

/-- A plain command as it arrives at the far end. -/
theorem received_forwarded {n : ℕ} {c : ClientCom n} (hc : Plain c) (memory : Str) :
    received memory ((forwarded c.session c.com).take 1024) = forwarded c.session c.com := by
  have hnul : 0 ∉ forwarded c.session c.com := by
    have hnum : (0 : UInt8) ∉ toStr c.session.auth := not_mem_toStr (by decide) (by decide) _
    rw [forwarded, List.mem_append, List.mem_append, List.mem_cons, List.mem_append]
    simp only [hc.text.2, hnum, or_false, false_or, not_or]
    decide
  rw [List.take_of_length_le hc.whole.le, received, if_pos hc.whole, cString]
  exact List.takeWhile_eq_self_iff.mpr fun b hb => decide_eq_true fun h0 => hnul (h0 ▸ hb)

/-- A reply as it arrives at the thread that waits for it. -/
theorem received_answerable {msg : Str} (h : Answerable msg) (memory : Str) :
    received memory (msg.take 1024) = msg := by
  rw [List.take_of_length_le h.whole.le, received, if_pos h.whole, cString]
  exact List.takeWhile_eq_self_iff.mpr fun b hb => decide_eq_true fun h0 => h.text (h0 ▸ hb)

variable (cfg i client) in
/-- What a step does to the store and to the replies. -/
def Advances (s s' : Serving ι cfg.length) (w : World) : Prop :=
  ∃ w', Sim cfg i client s' w' ∧ Advance exec client (reply client s) w (reply client s') w'

/-- A change of the store behind a command, which leaves the bounds of all nodes. -/
theorem refused_setWorld {servers : Fin cfg.length → Server} {c : Fin cfg.length} {k : Str}
    {v : World} (honly : OnlyKey k (servers c).w v) (d : Fin cfg.length) (ws : List Str) :
    refused (setWorld servers c v d).w.h ws = refused (servers d).w.h ws := by
  rw [Bool.eq_iff_iff, refused_iff, refused_iff]
  simp only [notHere_setWorld honly]

/-! ### The steps -/

/-- A plain command arrives in one piece. -/
theorem step_accept {r : ι} {j c : Fin cfg.length} (hc : Plain (client r))
    (hq : (s.links j c).requests = [(r, forwarded (client r).session (client r).com)])
    (hh : (s.links j c).inHand = []) (memory : Str) :
    step cfg i client s (.accept j c memory) = some (s.setLink j c { s.links j c with
      requests := []
      inHand := [(r, forwarded (client r).session (client r).com)] }) := by
  rw [step, hq]
  dsimp only
  rw [received_forwarded hc, hh, List.nil_append, leftOver, if_pos hc.whole.le]

/-- What a node receives of a peer is the one command on the connection. -/
theorem Sim.accepts (h : Sim cfg i client s w) (hplain : ∀ r, Plain (client r))
    {j c : Fin cfg.length} {memory : Str} (hs : step cfg i client s (.accept j c memory) = some s') :
    ∃ r, s.stand r = .waiting c ∧ (client r).node = j ∧
      refused (s.servers c).w.h (words (client r).com) = false ∧
      (s.links j c).requests = [(r, forwarded (client r).session (client r).com)] ∧
      (s.links j c).inHand = [] ∧ (s.links j c).replies = [] ∧
      s' = s.setLink j c { s.links j c with
        requests := []
        inHand := [(r, forwarded (client r).session (client r).com)] } := by
  cases hreq : (s.links j c).requests with
  | nil =>
    rw [step, hreq] at hs
    cases hs
  | cons m rest =>
    obtain ⟨r, hstand, hnode, hcarries, hhere⟩ := h.waits (j := j) (c := c) fun hidle => by
      simp [hidle.requests] at hreq
    cases hcarries with
    | inHand hq => simp [hq] at hreq
    | reply hq => simp [hq] at hreq
    | request hq hh hr =>
      rw [step_accept (hplain r) hq hh] at hs
      exact ⟨r, hstand, hnode, hhere, hreq.symm.trans hq, hh, hr, (Option.some.inj hs).symm⟩

/-- **A node receives a command** of a peer: it goes from the connection into the hand. -/
theorem Sim.accept (h : Sim cfg i client s w) (hplain : ∀ r, Plain (client r))
    {j c : Fin cfg.length} {memory : Str} (hs : step cfg i client s (.accept j c memory) = some s') :
    Advances cfg i client s s' w := by
  obtain ⟨r₀, hstand, hnode, hhere, -, -, hr, rfl⟩ := h.accepts hplain hs
  refine ⟨w, ⟨h.informed, h.merged, h.single, fun r' c' hr' => ?_, fun j' c' hfree => ?_⟩, ?_⟩
  · rw [setLink_links]
    split_ifs with hlink
    · obtain ⟨hj, rfl⟩ := hlink
      obtain rfl := h.single r' r₀ c' hr' hstand (hj.trans hnode.symm)
      exact ⟨.inHand rfl rfl hr, hhere⟩
    · exact h.carries r' c' hr'
  · rw [setLink_links, if_neg]
    · exact h.free j' c' hfree
    · rintro ⟨rfl, rfl⟩
      exact hfree r₀ hstand hnode
  · exact .of_eq (reply_setLink rfl)

/-- The owner executes a command that it has in hand. -/
theorem step_reply {r : ι} {j c : Fin cfg.length} {msg : Str} {v' : World} (hc : Plain (client r))
    (hq : (s.links j c).requests = [])
    (hh : (s.links j c).inHand = [(r, forwarded (client r).session (client r).com)])
    (hr : (s.links j c).replies = []) (hexec : exec (client r) (s.servers c).w = some (msg, v'))
    (hmsg : Answerable msg) :
    ∃ ss, step cfg i client s (.reply j c r) =
      some (({ s with servers := setWorld s.servers c v' } : Serving ι cfg.length).setLink j c
        { session := ss, replies := [(r, msg)] }) := by
  obtain ⟨x, hx, hserver, hsend⟩ : ∃ x, scanAndSend _ (s.links j c).session _ _ true = some x ∧ _ :=
    scanAndSend_answers hc.text.1 hc.auth hexec hmsg.unmarked
  have hfilter : ([(r, forwarded (client r).session (client r).com)].filter fun m => m.1 ≠ r) = [] := by
    simp
  refine ⟨x.session, ?_⟩
  rw [step, hh, List.lookup_cons_self, Option.bind_some, hx, Option.bind_some, hsend]
  dsimp only
  rw [hserver, hq, hh, hr, if_neg hmsg.sent, hfilter, List.nil_append]
  rfl

/-- What the owner replies to is the one command on the connection. -/
theorem Sim.replies (h : Sim cfg i client s w) (hplain : ∀ r, Plain (client r))
    {j c : Fin cfg.length} {r : ι} (hok : Orderly client s (.reply j c r))
    (hs : step cfg i client s (.reply j c r) = some s') :
    ∃ msg v' ss, s.stand r = .waiting c ∧ (client r).node = j ∧
      refused (s.servers c).w.h (words (client r).com) = false ∧ (s.links j c).requests = [] ∧
      (s.links j c).inHand = [(r, forwarded (client r).session (client r).com)] ∧
      (s.links j c).replies = [] ∧ exec (client r) (s.servers c).w = some (msg, v') ∧
      Answerable msg ∧
      s' = ({ s with servers := setWorld s.servers c v' } : Serving ι cfg.length).setLink j c
        { session := ss, replies := [(r, msg)] } := by
  obtain ⟨com, hlookup, hscan⟩ := Option.bind_eq_some_iff.mp hs
  obtain ⟨x, hx, -⟩ := Option.bind_eq_some_iff.mp hscan
  obtain ⟨r₀, hstand, hnode, hcarries, hhere⟩ := h.waits (j := j) (c := c) fun hidle => by
    simp [hidle.inHand] at hlookup
  cases hcarries with
  | request hq hh => simp [hh] at hlookup
  | reply hq hh => simp [hh] at hlookup
  | inHand hq hh hr =>
    rw [hh] at hlookup
    obtain ⟨rfl, rfl⟩ := eq_of_lookup_singleton hlookup
    obtain ⟨hcom, hauth⟩ := And.intro (hplain r).text.1 (hplain r).auth
    obtain ⟨⟨msg, v'⟩, hexec, -⟩ := Option.bind_eq_some_iff.mp hx
    rw [execute, words_commandPart_forwarded hcom, ← execute,
      authority_forwarded hcom hauth] at hexec
    have hmsg : Answerable msg := hok msg v' hexec
    obtain ⟨ss, hss⟩ := step_reply (i := i) (hplain r) hq hh hr hexec hmsg
    exact ⟨msg, v', ss, hstand, hnode, hhere, hq, hh, hr, hexec, hmsg,
      Option.some.inj (hs.symm.trans hss)⟩

/-- **The owner replies.**  This is where a command that was sent on is executed. -/
theorem Sim.reply (h : Sim cfg i client s w) (hplain : ∀ r, Plain (client r))
    {j c : Fin cfg.length} {r : ι} (hok : Orderly client s (.reply j c r))
    (hs : step cfg i client s (.reply j c r) = some s') : Advances cfg i client s s' w := by
  obtain ⟨msg, v', ss, hstand, hnode, hhere, -, -, hr, hexec, hmsg, rfl⟩ := h.replies hplain hok hs
  obtain ⟨w', hw', hmerged, honly⟩ := h.merged.exec h.informed (hplain r).ordinary hhere hexec
  refine ⟨w', ⟨informed_setWorld honly h.informed, hmerged, h.single, fun r' c' hr' => ?_,
    fun j' c' hfree => ?_⟩, .of_update (i := r) (r := msg) ?_ hw' (funext fun r' => ?_)⟩
  · have href : refused (setWorld s.servers c v' c').w.h (words (client r').com)
        = refused (s.servers c').w.h (words (client r').com) := refused_setWorld honly c' _
    rw [setLink_links]
    split_ifs with hlink
    · obtain ⟨hj, rfl⟩ := hlink
      obtain rfl := h.eq_of_link hstand hr' ⟨hj.trans hnode.symm, rfl⟩
      exact ⟨.reply rfl rfl rfl hmsg, href.trans hhere⟩
    · obtain ⟨hcarries', hhere'⟩ := h.carries r' c' hr'
      exact ⟨hcarries', href.trans hhere'⟩
  · rw [setLink_links, if_neg]
    · exact h.free j' c' hfree
    · rintro ⟨rfl, rfl⟩
      exact hfree r hstand hnode
  · rw [reply_of_waiting hstand, hnode, hr, List.lookup_nil]
  · by_cases hr' : r' = r
    · subst hr'
      rw [Function.update_self, reply_of_waiting (c := c), setLink_links, if_pos ⟨hnode, rfl⟩]
      · exact List.lookup_cons_self
      · exact hstand
    · rw [Function.update_of_ne hr']
      refine h.reply_of_ne hstand hr' rfl fun j' c' hlink => ?_
      rw [setLink_links, if_neg (hnode ▸ hlink)]

/-- A reply arrives in one piece. -/
theorem step_receive {r : ι} {c : Fin cfg.length} {msg : Str} (hstand : s.stand r = .waiting c)
    (hr : (s.links (client r).node c).replies = [(r, msg)]) (hmsg : Answerable msg) (memory : Str) :
    step cfg i client s (.receive r memory) =
      some { s.setLink (client r).node c { s.links (client r).node c with replies := [] }
        with stand := Function.update s.stand r (.answered msg) } := by
  rw [step, hstand]
  dsimp only
  rw [hr]
  dsimp only
  rw [received_answerable hmsg, leftOver, if_pos hmsg.whole.le]

/-- What a thread receives is the reply to its own command. -/
theorem Sim.receives (h : Sim cfg i client s w) {r : ι} {memory : Str}
    (hs : step cfg i client s (.receive r memory) = some s') :
    ∃ c msg, s.stand r = .waiting c ∧ (s.links (client r).node c).requests = [] ∧
      (s.links (client r).node c).inHand = [] ∧
      (s.links (client r).node c).replies = [(r, msg)] ∧
      s' = { s.setLink (client r).node c { s.links (client r).node c with replies := [] }
        with stand := Function.update s.stand r (.answered msg) } := by
  cases hstand : s.stand r with
  | unsent =>
    rw [step, hstand] at hs
    cases hs
  | answered msg =>
    rw [step, hstand] at hs
    cases hs
  | waiting c =>
    obtain ⟨hcarries, -⟩ := h.carries r c hstand
    cases hcarries with
    | request hq hh hr =>
      rw [step, hstand] at hs
      simp [hr] at hs
    | inHand hq hh hr =>
      rw [step, hstand] at hs
      simp [hr] at hs
    | @reply msg hq hh hr hmsg =>
      rw [step_receive hstand hr hmsg] at hs
      exact ⟨c, msg, rfl, hq, hh, hr, (Option.some.inj hs).symm⟩

/-- **A thread receives the reply to its own command**, since nothing else is on the connection. -/
theorem Sim.receive (h : Sim cfg i client s w) {r : ι} {memory : Str}
    (hs : step cfg i client s (.receive r memory) = some s') : Advances cfg i client s s' w := by
  obtain ⟨c, msg, hstand, hq, hh, hr, rfl⟩ := h.receives hs
  have hstands : ∀ r' c', Function.update s.stand r (.answered msg) r' = .waiting c' →
      r' ≠ r ∧ s.stand r' = .waiting c' := fun r' c' => waiting_of_update (by simp)
  refine ⟨w, ⟨h.informed, h.merged, fun r₁ r₂ c' h₁ h₂ hnode => ?_, fun r' c' hr' => ?_,
    fun j' c' hfree => ?_⟩, .of_eq (funext fun r' => ?_)⟩
  · exact h.single r₁ r₂ c' (hstands r₁ c' h₁).2 (hstands r₂ c' h₂).2 hnode
  · obtain ⟨hne, hr'⟩ := hstands r' c' hr'
    refine ⟨?_, (h.carries r' c' hr').2⟩
    rw [setLink_links, if_neg fun hlink => hne (h.eq_of_link hstand hr' hlink)]
    exact (h.carries r' c' hr').1
  · rw [setLink_links]
    split_ifs with hlink
    · exact ⟨hq, hh, rfl⟩
    · refine h.free j' c' fun r' hr' hnode => hfree r' ?_ hnode
      have hne : r' ≠ r := by
        rintro rfl
        rw [hstand] at hr'
        injection hr' with hc
        exact hlink ⟨hnode.symm, hc.symm⟩
      exact (Function.update_of_ne hne _ _).trans hr'
  · by_cases hne : r' = r
    · subst hne
      rw [reply_of_waiting hstand, hr, List.lookup_cons_self]
      exact reply_of_answered (Function.update_self ..)
    · refine h.reply_of_ne hstand hne (Function.update_of_ne hne _ _) fun j' c' hlink => ?_
      rw [setLink_links, if_neg hlink]

/-- The node at the address of a node. -/
theorem find_peer (haddr : ∀ c c' : Fin cfg.length, (target cfg i c).map Replica.peer
      = (target cfg i c').map Replica.peer → c = c')
    {c : Fin cfg.length} {r : Replica} (hr : target cfg i c = some r) :
    find cfg i r.peer = some c := by
  unfold find
  have hc : (target cfg i c).map Replica.peer = some r.peer := by rw [hr, Option.map_some]
  cases hfind : (List.finRange cfg.length).find? fun c : Fin cfg.length =>
      (target cfg i c).map Replica.peer = some r.peer with
  | none =>
    have hno := List.find?_eq_none.mp hfind c (List.mem_finRange c)
    exact absurd (decide_eq_true hc) hno
  | some c' =>
    have hsome := List.find?_some hfind
    have hc' := of_decide_eq_true hsome
    rw [haddr c' c (hc'.trans hc.symm)]

/-- A node executes a command of a client. -/
theorem step_executes {r : ι} {msg : Str} {v' : World} (hc : Plain (client r))
    (hstand : s.stand r = .unsent)
    (hexec : exec (client r) (s.servers (client r).node).w = some (msg, v')) (hmsg : Answerable msg) :
    step cfg i client s (.take r) = some { s with
      servers := setWorld s.servers (client r).node v'
      stand := Function.update s.stand r (.answered msg) } := by
  obtain ⟨x, hx, hserver, hsend⟩ := scanAndSend_executes hc.text.1 hexec hmsg.unmarked
  rw [step, hstand]
  dsimp only
  rw [hx, Option.bind_some, hsend]
  dsimp only
  rw [hserver]
  rfl

/-- A command that was executed where it was sent to is done. -/
theorem Sim.executed (h : Sim cfg i client s w) {r : ι} {msg : Str} {v' : World} (hc : Plain (client r))
    (hstand : s.stand r = .unsent)
    (href : refused (s.servers (client r).node).w.h (words (client r).com) = false)
    (hexec : exec (client r) (s.servers (client r).node).w = some (msg, v')) :
    Advances cfg i client s { s with
      servers := setWorld s.servers (client r).node v'
      stand := Function.update s.stand r (.answered msg) } w := by
  obtain ⟨w', hw', hmerged, honly⟩ := h.merged.exec h.informed hc.ordinary href hexec
  have hstands : ∀ r' c', Function.update s.stand r (.answered msg) r' = .waiting c' →
      r' ≠ r ∧ s.stand r' = .waiting c' := fun r' c' => waiting_of_update (by simp)
  refine ⟨w', ⟨informed_setWorld honly h.informed, hmerged, fun r₁ r₂ c' h₁ h₂ hnode => ?_,
    fun r' c' hr' => ?_, fun j' c' hfree => ?_⟩,
    .of_update (reply_of_unsent hstand) hw' (funext fun r' => ?_)⟩
  · exact h.single r₁ r₂ c' (hstands r₁ c' h₁).2 (hstands r₂ c' h₂).2 hnode
  · obtain ⟨hcarries, hhere⟩ := h.carries r' c' (hstands r' c' hr').2
    exact ⟨hcarries, (refused_setWorld honly c' _).trans hhere⟩
  · refine h.free j' c' fun r' hr' hnode => hfree r' ?_ hnode
    have hne : r' ≠ r := by
      rintro rfl
      exact absurd (hstand.symm.trans hr') (by simp)
    exact (Function.update_of_ne hne _ _).trans hr'
  · by_cases hne : r' = r
    · subst hne
      rw [Function.update_self]
      exact reply_of_answered (Function.update_self ..)
    · rw [Function.update_of_ne hne]
      exact reply_congr (Function.update_of_ne hne _ _) fun _ _ => rfl

/-- A command that was sent to the owner of its key waits on a connection of its own. -/
theorem Sim.asked (h : Sim cfg i client s w) {r : ι} {c : Fin cfg.length} (hstand : s.stand r = .unsent)
    (hhere : refused (s.servers c).w.h (words (client r).com) = false)
    (hfree : ∀ r', s.stand r' = .waiting c → (client r').node ≠ (client r).node) :
    Advances cfg i client s
      { s.setLink (client r).node c { s.links (client r).node c with
          requests := [(r, forwarded (client r).session (client r).com)] }
        with stand := Function.update s.stand r (.waiting c) } w := by
  have hidle := h.free (client r).node c hfree
  have hstands : ∀ r' c', Function.update s.stand r (.waiting c) r' = .waiting c' →
      (r' = r ∧ c' = c) ∨ (r' ≠ r ∧ s.stand r' = .waiting c') := by
    intro r' c' hr'
    by_cases heq : r' = r
    · rw [heq, Function.update_self] at hr'
      injection hr' with hc'
      exact Or.inl ⟨heq, hc'.symm⟩
    · rw [Function.update_of_ne heq] at hr'
      exact Or.inr ⟨heq, hr'⟩
  refine ⟨w, ⟨h.informed, h.merged, fun r₁ r₂ c' h₁ h₂ hnode => ?_, fun r' c' hr' => ?_,
    fun j' c' hfree' => ?_⟩, .of_eq (funext fun r' => ?_)⟩
  · rcases hstands r₁ c' h₁ with ⟨rfl, rfl⟩ | ⟨-, hold₁⟩
    · rcases hstands r₂ c' h₂ with ⟨rfl, -⟩ | ⟨-, hold₂⟩
      · rfl
      · exact absurd hnode.symm (hfree r₂ hold₂)
    · rcases hstands r₂ c' h₂ with ⟨rfl, rfl⟩ | ⟨-, hold₂⟩
      · exact absurd hnode (hfree r₁ hold₁)
      · exact h.single r₁ r₂ c' hold₁ hold₂ hnode
  · rw [setLink_links]
    rcases hstands r' c' hr' with ⟨rfl, rfl⟩ | ⟨-, hold⟩
    · rw [if_pos ⟨rfl, rfl⟩]
      exact ⟨.request rfl hidle.inHand hidle.replies, hhere⟩
    · rw [if_neg]
      · exact h.carries r' c' hold
      · rintro ⟨hnode, rfl⟩
        exact hfree r' hold hnode
  · rw [setLink_links, if_neg]
    · refine h.free j' c' fun r' hr' hnode => hfree' r' ?_ hnode
      have hne' : r' ≠ r := by
        rintro rfl
        exact absurd (hstand.symm.trans hr') (by simp)
      exact (Function.update_of_ne hne' _ _).trans hr'
    · rintro ⟨rfl, rfl⟩
      exact hfree' r (Function.update_self ..) rfl
  · by_cases hne' : r' = r
    · subst hne'
      rw [reply_of_unsent hstand, reply_of_waiting (c := c), setLink_links, if_pos ⟨rfl, rfl⟩]
      · dsimp only
        rw [hidle.replies, List.lookup_nil]
      · exact Function.update_self ..
    · refine reply_congr (Function.update_of_ne hne' _ _) fun c' _ => ?_
      rw [setLink_links]
      split_ifs with hlink
      · rw [hlink.1, hlink.2]
      · rfl

section

variable (hplain : ∀ r, Plain (client r))
  (haddr : ∀ c c' : Fin cfg.length, (target cfg i c).map Replica.peer
    = (target cfg i c').map Replica.peer → c = c')
  (htarget : ∀ c : Fin cfg.length, ∃ r, target cfg i c = some r)

include hplain haddr htarget

/-- A node that refuses the key of a command sends the command to the owner. -/
theorem Sim.step_asks (h : Sim cfg i client s w) {r : ι} (hstand : s.stand r = .unsent)
    (href : refused (s.servers (client r).node).w.h (words (client r).com) = true) :
    ∃ c, refused (s.servers c).w.h (words (client r).com) = false ∧
      step cfg i client s (.take r) = some
        { s.setLink (client r).node c { s.links (client r).node c with
            requests := (s.links (client r).node c).requests ++
              [(r, forwarded (client r).session (client r).com)] }
          with stand := Function.update s.stand r (.waiting c) } := by
  obtain ⟨k, hk, hnames, hnot⟩ := names_of_refused (hplain r) href
  have hpos : 0 < cfg.length := (Nat.zero_le _).trans_lt (client r).node.isLt
  obtain ⟨c₀, hc₀, hshare⟩ := exists_share hpos (point_lt k)
  obtain ⟨c, rfl⟩ : ∃ c : Fin cfg.length, c.val = c₀ := ⟨⟨c₀, hc₀⟩, rfl⟩
  obtain ⟨p, hp⟩ := htarget c
  have hown : notHere (s.servers c).w.h k = false :=
    ((h.informed c).notHere_iff c.isLt k).mpr hshare
  have hne : ((client r).node : ℕ) ≠ c := by
    intro heq
    rw [← Fin.ext heq, hnot] at hown
    exact Bool.noConfusion hown
  obtain ⟨index, hleads⟩ :=
    (h.informed (client r).node).leadsTo (client r).node.isLt c.isLt hne hp hshare
  obtain ⟨x, p', hx, hserver, hsend, hp', hvec⟩ :=
    scanAndSend_asks (hplain r) hleads hnames (client r).currTime
  obtain rfl := Option.some.inj (hp.symm.trans hp')
  refine ⟨c, (refused_of_getElem? hk).trans hown, ?_⟩
  rw [step, hstand]
  dsimp only
  rw [hx, Option.bind_some, hsend]
  dsimp only
  rw [hvec, Option.bind_some, Option.bind_some, find_peer haddr hp, Option.map_some, hserver,
    Function.update_eq_self]

/-- What becomes of a command that a node takes: it is executed there, or it is the one thing on the
connection to the owner of its key. -/
theorem Sim.takes (h : Sim cfg i client s w) {r : ι} (hok : Orderly client s (.take r))
    (hs : step cfg i client s (.take r) = some s') :
    s.stand r = .unsent ∧
      ((∃ msg v', refused (s.servers (client r).node).w.h (words (client r).com) = false ∧
          exec (client r) (s.servers (client r).node).w = some (msg, v') ∧
          s' = { s with
            servers := setWorld s.servers (client r).node v'
            stand := Function.update s.stand r (.answered msg) }) ∨
        ∃ c, refused (s.servers c).w.h (words (client r).com) = false ∧
          (∀ r', s.stand r' = .waiting c → (client r').node ≠ (client r).node) ∧
          s' = { s.setLink (client r).node c { s.links (client r).node c with
              requests := [(r, forwarded (client r).session (client r).com)] }
            with stand := Function.update s.stand r (.waiting c) }) := by
  obtain ⟨hanswer, hbusy⟩ := hok
  have hstand : s.stand r = .unsent := by
    cases hr : s.stand r with
    | unsent => rfl
    | waiting c =>
      rw [step, hr] at hs
      cases hs
    | answered msg =>
      rw [step, hr] at hs
      cases hs
  refine ⟨hstand, ?_⟩
  cases href : refused (s.servers (client r).node).w.h (words (client r).com) with
  | false =>
    -- the node owns the key, or there is none
    have hscan := hs
    rw [step, hstand] at hscan
    obtain ⟨x, hx, -⟩ := Option.bind_eq_some_iff.mp hscan
    obtain ⟨msg, v', hexec⟩ := execute_of_scanAndSend (hplain r).text.1 hx
    rw [step_executes (hplain r) hstand hexec (hanswer href msg v' hexec)] at hs
    exact Or.inl ⟨msg, v', rfl, hexec, (Option.some.inj hs).symm⟩
  | true =>
    -- the owner is another node, and nothing is on the connection to it
    obtain ⟨c, hhere, hstep⟩ := h.step_asks hplain haddr htarget hstand href
    have hfree : ∀ r', s.stand r' = .waiting c → (client r').node ≠ (client r).node := by
      intro r' hr' hnode
      rw [hbusy r' c hr' hnode] at hhere
      exact Bool.noConfusion hhere
    rw [hstep, (h.free (client r).node c hfree).requests, List.nil_append] at hs
    exact Or.inr ⟨c, hhere, hfree, (Option.some.inj hs).symm⟩

/-- **A node takes the command of a client**, and executes it or sends it to the owner of its key. -/
theorem Sim.take (h : Sim cfg i client s w) {r : ι} (hok : Orderly client s (.take r))
    (hs : step cfg i client s (.take r) = some s') : Advances cfg i client s s' w := by
  obtain ⟨hstand, ⟨msg, v', href, hexec, rfl⟩ | ⟨c, hhere, hfree, rfl⟩⟩ :=
    h.takes hplain haddr htarget hok hs
  · exact h.executed (hplain r) hstand href hexec
  · exact h.asked hstand hhere hfree

/-- **Every orderly step** keeps the simulation, and completes at most one command. -/
theorem Sim.next (h : Sim cfg i client s w) (hs : Next i client s s') :
    Advances cfg i client s s' w := by
  obtain ⟨e, hok, hs⟩ := hs
  cases e with
  | take r => exact h.take hplain haddr htarget hok hs
  | accept j c memory => exact h.accept hplain hs
  | reply j c r => exact h.reply hplain hok hs
  | receive r memory => exact h.receive hs

end

section

variable (hwf : ∀ row ∈ cfg, ∀ r ∈ row, r.WellFormed)
  (haddr : ∀ c c' : Fin cfg.length, (target cfg i c).map Replica.peer
    = (target cfg i c').map Replica.peer → c = c')
  {servers : Fin cfg.length → Server}
  (hsettled : ∀ c : Fin cfg.length, Settled cfg i c (servers c)) {w₀ : World}
  (hw₀ : Merged servers w₀) (hplain : ∀ r, Plain (client r)) {visited : List (Serving ι cfg.length)}
  (hrun : Passes (Next i client) (start servers) visited s)

include hwf haddr hsettled hw₀ hplain hrun

end

end Serving

end MuseKv
