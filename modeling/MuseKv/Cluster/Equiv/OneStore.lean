import MuseKv.Cluster.Equiv.Coverage
import MuseKv.Cluster.Serving
import MuseKv.Command.Equiv.Locality

/-!
# The nodes of a cluster hold one store together

A command that the owner of its key executes has the reply that one store of all entries gives, and
leaves the nodes holding the entries of that store (**`Merged.exec`**).  A node sends any other command
to the owner (`scanAndSend_asks`), which executes it as the node's own client would
(`scanAndSend_answers`).
-/

namespace MuseKv

open General Kvstore Command

namespace Serving

open Distribute

variable {cfg : Config} {i : ℕ} {n : ℕ}

/-! ### What `scan_and_send` does with a plain command -/

section

variable {s : Server} {ss link : Session} {com msg : Str} {t : Int} {w' : World}

/-- A node that executes the command of its client answers it. -/
theorem scanAndSend_executes (hcom : backspace ∉ com)
    (hexec : execute com (toU8 ss.auth) t s.w = some (msg, w')) (hm : ¬ Marked msg) :
    ∃ x, scanAndSend s ss com t true = some x ∧ x.server = { s with w := w' } ∧
      x.send = .client msg := by
  rw [scanAndSend, commandPart_of_not_mem hcom, authority, if_neg hcom, hexec, Option.bind_some,
    route_client hm]
  exact ⟨_, rfl, rfl, rfl⟩

/-- The owner executes a command that another node sends it, with the authority of the session there. -/
theorem scanAndSend_answers (hcom : backspace ∉ com)
    (hauth : -2 ^ 31 ≤ ss.auth ∧ ss.auth < 2 ^ 31)
    (hexec : execute com (toU8 ss.auth) t s.w = some (msg, w')) (hm : ¬ Marked msg) :
    ∃ x, scanAndSend s link (forwarded ss com) t true = some x ∧ x.server = { s with w := w' } ∧
      x.send = .client msg := by
  rw [scanAndSend, authority_forwarded hcom hauth, execute, words_commandPart_forwarded hcom, ← execute, hexec,
    Option.bind_some, route_client hm]
  exact ⟨_, rfl, rfl, rfl⟩

/-- A command that faults at a node stops its thread. -/
theorem execute_of_scanAndSend {x : Scan} (hcom : backspace ∉ com)
    (h : scanAndSend s ss com t true = some x) :
    ∃ msg w', execute com (toU8 ss.auth) t s.w = some (msg, w') := by
  obtain ⟨r, hr, -⟩ := Option.bind_eq_some_iff.mp h
  rw [commandPart_of_not_mem hcom, authority, if_neg hcom] at hr
  exact ⟨r.1, r.2, hr⟩

end

theorem refused_of_getElem? {h : Hash} {ws : List Str} {k : Str} (hk : ws[1]? = some k) :
    refused h ws = notHere h k := by
  rw [Bool.eq_iff_iff, refused_iff, hk]
  simp

/-- A plain command that a node refuses names a key. -/
theorem names_of_refused {c : ClientCom n} {h : Hash} (hc : Plain c)
    (href : refused h (words c.com) = true) :
    ∃ k, (words c.com)[1]? = some k ∧ Names c.com k ∧ notHere h k = true := by
  obtain ⟨k, hk, hnot⟩ := refused_iff.mp href
  match hws : words c.com with
  | [] => simp [hws] at hk
  | [word] => simp [hws] at hk
  | word :: k' :: args =>
    obtain rfl : k' = k := by simpa [hws] using hk
    refine ⟨k', rfl, ⟨word, args, ?_, (hc.ordinary word (k' :: args) hws).1⟩, hnot⟩
    rw [commandPart_of_not_mem hc.text.1, hws]

/-- **A node that refuses a key sends the command to the owner**, and is as it was. -/
theorem scanAndSend_asks {s : Server} {c : ClientCom n} {o : ℕ} {k : Str} {index : ℕ}
    (hc : Plain c) (hleads : LeadsTo cfg i s o k index) (hnames : Names c.com k) (t : Int) :
    ∃ x r, scanAndSend s c.session c.com t true = some x ∧ x.server = s ∧
      x.send = .peer index (forwarded c.session c.com) ∧ target cfg i o = some r ∧
      x.server.clusterVec[index]? = some (some r.peer) := by
  obtain ⟨word, args, hws, hctl⟩ := hnames
  obtain ⟨r, htarget, hvec⟩ := hleads.names
  have hexec : execute (commandPart c.com) (toU8 (authority c.session c.com)) t s.w
      = some (lit "hashval " ++ toStr (Hash.hashFunc k), s.w) := by
    have href : (k :: args).head?.any (notHere s.w.h) = true := hleads.refuses
    rw [execute, hws, executeWords, if_neg hctl, if_pos href]
    rfl
  have hsearch : Server.search { s with w := s.w } (Hash.hashFunc k) = some index := hleads.search
  rw [scanAndSend, hexec, Option.bind_some,
    route_ask (List.prefix_append_of_prefix (by decide)).isInfix, ask_hashval, hsearch,
    Option.bind_some, hvec, Option.map_some, Option.map_some, commandPart_of_not_mem hc.text.1]
  exact ⟨_, r, rfl, rfl, rfl, htarget, hvec⟩

/-! ### The nodes -/

/-- A change of the table of a node that leaves its bounds. -/
def setWorld (servers : Fin n → Server) (c : Fin n) (w : World) : Fin n → Server :=
  Function.update servers c { servers c with w := w }

variable {servers : Fin cfg.length → Server} {c : Fin cfg.length}

theorem setWorld_w {v : World} (d : Fin n) (servers : Fin n → Server) (c : Fin n) :
    (setWorld servers c v d).w = if d = c then v else (servers d).w := by
  unfold setWorld
  split_ifs with hd
  · rw [hd, Function.update_self]
  · rw [Function.update_of_ne hd]

theorem notHere_setWorld {ks : Str} {v : World} (honly : OnlyKey ks (servers c).w v)
    (d : Fin cfg.length) (k : Str) :
    notHere (setWorld servers c v d).w.h k = notHere (servers d).w.h k := by
  rw [setWorld_w]
  split_ifs with hd
  · rw [hd, notHere, notHere, honly.startNum, honly.endNum]
  · rfl

/-- What the setup left at a node stays. -/
theorem informed_setWorld {ks : Str} {v : World} (honly : OnlyKey ks (servers c).w v)
    (hinf : ∀ d : Fin cfg.length, Informed cfg i d (servers d) (List.range cfg.length))
    (d : Fin cfg.length) : Informed cfg i d (setWorld servers c v d) (List.range cfg.length) := by
  by_cases hd : d = c
  · subst hd
    rw [setWorld, Function.update_self]
    refine ⟨⟨(hinf d).knows.1, (hinf d).knows.2, (hinf d).knows.3, (hinf d).knows.4⟩, fun hmem => ?_⟩
    obtain ⟨hstart, hend⟩ := (hinf d).bounds hmem
    exact ⟨honly.startNum.trans hstart, honly.endNum.trans hend⟩
  · rw [setWorld, Function.update_of_ne hd]
    exact hinf d

/-- **Two nodes do not own the same key.** -/
theorem owner_unique
    (hinf : ∀ d : Fin cfg.length, Informed cfg i d (servers d) (List.range cfg.length))
    {c d : Fin cfg.length} {k : Str} (hc : notHere (servers c).w.h k = false)
    (hd : notHere (servers d).w.h k = false) : c = d :=
  Fin.ext ((((hinf c).notHere_iff c.isLt k).mp hc).unique c.isLt d.isLt
    (((hinf d).notHere_iff d.isLt k).mp hd))

/-- A command of one word, or of none, does nothing. -/
theorem executeWords_short {ws : List Str} {auth : UInt8} {t : Int} (hord : Ordinary ws)
    (hshort : ws[1]? = none) (w : World) :
    executeWords ws auth t w = some (invalidCommand, w) := by
  match ws with
  | [] => rfl
  | [word] =>
    obtain ⟨hctl, hkeyed⟩ := hord word [] rfl
    rw [executeWords, if_neg hctl, if_neg (by simp)]
    cases hlook : lookup dispatch word (List.length (α := Str) [] + 1) with
    | none => rfl
    | some handler =>
      obtain ⟨f, rfl⟩ := hkeyed handler hlook
      exact absurd rfl (args_ne_nil_of_keyed hlook)
  | word :: k :: args => simp at hshort

/-- **The owner of its key executes a command as one store would.** -/
theorem Merged.exec {w v' : World} {msg : Str} {ws : List Str} {auth : UInt8} {t : Int}
    (hm : Merged servers w)
    (hinf : ∀ d : Fin cfg.length, Informed cfg i d (servers d) (List.range cfg.length))
    (hord : Ordinary ws) (hhere : refused (servers c).w.h ws = false)
    (h : executeWords ws auth t (servers c).w = some (msg, v')) :
    ∃ w', executeWords ws auth t w = some (msg, w') ∧ Merged (setWorld servers c v') w' ∧
      OnlyKey (keyOf ws) (servers c).w v' := by
  cases hkey : ws[1]? with
  | none =>
    rw [executeWords_short hord hkey] at h
    obtain ⟨rfl, rfl⟩ := Prod.mk.inj (Option.some.inj h)
    refine ⟨w, executeWords_short hord hkey w, ?_, .refl _ _⟩
    rwa [setWorld, Function.update_eq_self]
  | some k =>
    have hk : keyOf ws = k := by rw [keyOf, List.getD_eq_getElem?_getD, hkey, Option.getD_some]
    have hown : notHere (servers c).w.h k = false := (refused_of_getElem? hkey).symm.trans hhere
    have hw : refused w.h ws = false := (refused_of_getElem? hkey).trans (hm.here k)
    have hagree : (servers c).w.h.findNode (keyOf ws) = w.h.findNode (keyOf ws) := by
      rw [hk, hm.entries, if_neg (by rw [hown]; exact Bool.false_ne_true)]
    obtain ⟨w', hw', hentry, honly, honly'⟩ := executeWords_alike hord hhere hw hagree h
    refine ⟨w', hw', ⟨fun k' => (honly'.notHere k').trans (hm.here k'), fun d k' => ?_⟩, honly⟩
    rw [notHere_setWorld honly, setWorld_w]
    by_cases hk' : k' = keyOf ws
    · subst hk'
      by_cases hd : d = c
      · subst hd
        rw [if_pos rfl, hk, if_neg (by rw [hown]; exact Bool.false_ne_true), ← hk, hentry]
      · -- the other nodes have no entry of the key, because they do not own it
        have hother : notHere (servers d).w.h (keyOf ws) = true := by
          rw [← Bool.not_eq_false, hk]
          exact fun hhere' => hd (owner_unique hinf hhere' hown)
        rw [if_neg hd, hm.entries, if_pos hother, if_pos hother]
    · -- the entries of other keys are as before at every node
      rw [honly'.others k' hk', ← hm.entries d k']
      by_cases hd : d = c
      · rw [if_pos hd, hd]
        exact honly.others k' hk'
      · rw [if_neg hd]

end Serving

end MuseKv
