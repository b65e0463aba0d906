import MuseKv.Command.Equiv.Execute
import MuseKv.Command.Locality

/-!
# A command acts on the entry of its key

A command that is neither a control word nor about the whole table is a function of one entry
(`keyEffect`): the entry of the key it names gives the reply and the entry that is left, and the rest of
the table stays (`executeWords_ordinary`).  So two tables that agree on the key answer alike
(`executeWords_alike`).
-/

namespace MuseKv

open Kvstore Command

/-! ### Actions -/

theorem KeyAction.perform_eq_run {a : KeyAction} {node node' : Option Kv}
    (h : a.perform node = some node') : a.run node = node' := by
  cases a with
  | del =>
    obtain ⟨n, -, hn⟩ := Option.bind_eq_some_iff.mp h
    split_ifs at hn
    exact Option.some.inj hn
  | keep => exact Option.some.inj h
  | set => exact Option.some.inj h
  | write => exact Option.some.inj h

/-- Whether an action faults depends on the entry of its key alone. -/
theorem Hash.apply_isSome (h : Hash) (k : Str) (a : KeyAction) :
    (h.apply k a).isSome = (a.perform (h.findNode k)).isSome := by
  cases a with
  | del =>
    cases hf : h.findNode k with
    | none => simp [Hash.apply, Hash.del, hf, KeyAction.perform]
    | some n =>
      cases hv : n.v.isUnset with
      | true =>
        rw [Hash.apply, del_eq_none_of_unset hf hv]
        simp [KeyAction.perform, hv]
      | false =>
        obtain ⟨h', hdel⟩ := del_isSome hf hv
        rw [Hash.apply, hdel]
        simp [KeyAction.perform, hv]
  | keep => rfl
  | set => rfl
  | write => rfl

theorem Hash.apply_perform {h h' : Hash} {k : Str} {a : KeyAction} (ha : h.apply k a = some h') :
    a.perform (h.findNode k) = some (h'.findNode k) := by
  have hsome := h.apply_isSome k a
  rw [ha, Option.isSome_some] at hsome
  obtain ⟨node', hnode'⟩ := Option.isSome_iff_exists.mp hsome.symm
  rw [hnode', findNode_apply ha, if_pos rfl, KeyAction.perform_eq_run hnode']

namespace Command

/-! ### Commands of one key -/

variable {ws : List Str} {auth : UInt8} {t : Int} {w w' : World} {msg : Str}

theorem keyEffect_keep {node : Option Kv} (h : keyResult ws auth t node = some (msg, .keep)) :
    keyEffect ws auth t node = some (msg, node) := by
  rw [keyEffect, h]
  rfl

theorem OnlyKey.refl (k : Str) (w : World) : OnlyKey k w w :=
  ⟨fun _ _ => rfl, rfl, rfl, rfl, rfl, rfl⟩

theorem OnlyKey.notHere {k : Str} (h : OnlyKey k w w') (k' : Str) :
    notHere w'.h k' = notHere w.h k' := by
  rw [Command.notHere, Command.notHere, h.startNum, h.endNum]

/-- A command without a row in the table answers that it is invalid. -/
theorem keyResult_of_none {word : Str} {args : List Str}
    (hlook : lookup dispatch word (args.length + 1) = none) (node : Option Kv) :
    keyResult (word :: args) auth t node = some (invalidCommand, .keep) := by
  match args with
  | [] => rfl
  | k :: args =>
    rw [List.length_cons] at hlook
    rw [keyResult, hlook]
    rfl

/-- An allowed action leaves no entry with the default value where there was none. -/
theorem Allowed.filled {c : Call} {node node' : Option Kv} {a : KeyAction} (h : Allowed c node a)
    (ha : a.perform node = some node') (hset : ∀ n, node = some n → n.v.isUnset = false) :
    ∀ n, node' = some n → n.v.isUnset = false := by
  cases h with
  | keep | same =>
    obtain rfl := Option.some.inj ha
    exact hset
  | @ttl n | @authr n | @authw n =>
    obtain rfl := Option.some.inj ha
    intro n' hn'
    obtain rfl := Option.some.inj hn'
    exact hset n rfl
  | expired | del =>
    rw [KeyAction.perform, Option.bind_some, if_neg (by rw [hset _ rfl]; exact Bool.false_ne_true)] at ha
    obtain rfl := Option.some.inj ha
    exact fun n hn => absurd hn (by simp)
  | set _ hv =>
    obtain rfl := Option.some.inj ha
    intro n hn
    obtain rfl := Option.some.inj hn
    cases node with
    | none => exact hv
    | some => exact hv
  | content _ _ hv =>
    obtain rfl := Option.some.inj ha
    intro n hn
    obtain rfl := Option.some.inj hn
    exact hv

/-- Words that reach no handler of a key answer that they are invalid. -/
theorem keyResult_cases (ws : List Str) (auth : UInt8) (t : Int) :
    (∀ node, keyResult ws auth t node = reply invalidCommand) ∨
      ∃ word k args f, ws = word :: k :: args ∧
        lookup dispatch word (args.length + 2) = some (.keyed f) ∧
        ∀ node, keyResult ws auth t node = f ⟨k, args, auth, t⟩ node := by
  match ws with
  | [] => exact Or.inl fun _ => rfl
  | [_] => exact Or.inl fun _ => rfl
  | word :: k :: args =>
    cases hlook : lookup dispatch word (args.length + 2) with
    | none => exact Or.inl fun _ => by rw [keyResult, hlook]
    | some handler =>
      cases handler with
      | keyed f => exact Or.inr ⟨word, k, args, f, rfl, hlook, fun _ => by rw [keyResult, hlook]⟩
      | keys | save | read => exact Or.inl fun _ => by rw [keyResult, hlook]

/-- Nor does a command. -/
theorem keyEffect_filled {node node' : Option Kv} (h : keyEffect ws auth t node = some (msg, node'))
    (hset : ∀ n, node = some n → n.v.isUnset = false) : ∀ n, node' = some n → n.v.isUnset = false := by
  obtain ⟨⟨msg', a⟩, hresult, h⟩ := Option.bind_eq_some_iff.mp h
  obtain ⟨node₁, hperform, heq⟩ := Option.map_eq_some_iff.mp h
  obtain ⟨rfl, rfl⟩ := Prod.mk.inj heq
  rcases keyResult_cases ws auth t with hinvalid | ⟨word, k, args, f, -, hlook, hf⟩
  · obtain ⟨-, rfl⟩ := Prod.mk.inj (Option.some.inj (hresult.symm.trans (hinvalid node)))
    obtain rfl := Option.some.inj hperform
    exact hset
  · rw [hf] at hresult
    exact (handler_sound hlook _ node msg' a hresult).filled hperform hset

/-- **What an ordinary command does**, and that nothing else changes. -/
theorem executeWords_ordinary (hord : Ordinary ws) (hhere : refused w.h ws = false)
    (h : executeWords ws auth t w = some (msg, w')) :
    keyEffect ws auth t (w.h.findNode (keyOf ws)) = some (msg, w'.h.findNode (keyOf ws)) ∧
      OnlyKey (keyOf ws) w w' := by
  match ws with
  | [] =>
    obtain ⟨rfl, rfl⟩ := Prod.mk.inj (Option.some.inj h)
    exact ⟨keyEffect_keep rfl, .refl _ _⟩
  | word :: args =>
    obtain ⟨hctl, hkeyed⟩ := hord word args rfl
    rw [executeWords, if_neg hctl, if_neg (by simpa [refused] using hhere)] at h
    cases hlook : lookup dispatch word (args.length + 1) with
    | none =>
      rw [hlook] at h
      obtain ⟨rfl, rfl⟩ := Prod.mk.inj (Option.some.inj h)
      exact ⟨keyEffect_keep (keyResult_of_none hlook _), .refl _ _⟩
    | some handler =>
      obtain ⟨f, rfl⟩ := hkeyed handler hlook
      obtain ⟨k, args, rfl⟩ := List.exists_cons_of_ne_nil (args_ne_nil_of_keyed hlook)
      rw [hlook] at h
      obtain ⟨r, hr, h⟩ := Option.bind_eq_some_iff.mp h
      obtain ⟨h', hh', heq⟩ := Option.map_eq_some_iff.mp h
      obtain ⟨rfl, rfl⟩ := Prod.mk.inj heq
      obtain ⟨hport, hstart, hend⟩ := Hash.apply_bounds hh'
      have hperform : r.2.perform (w.h.findNode k) = some (h'.findNode k) := Hash.apply_perform hh'
      refine ⟨?_, fun k' hk' => ?_, hport, hstart, hend, rfl, rfl⟩
      · have hresult : keyResult (word :: k :: args) auth t (w.h.findNode k) = some r := by
          rw [List.length_cons] at hlook
          rw [keyResult, hlook]
          exact hr
        change keyEffect (word :: k :: args) auth t (w.h.findNode k) = some (r.1, h'.findNode k)
        rw [keyEffect, hresult, Option.bind_some, hperform, Option.map_some]
      · exact (Hash.findNode_apply hh' k').trans (if_neg hk')

/-- **An ordinary command faults only on the entry of its key.** -/
theorem executeWords_isSome (hord : Ordinary ws) (hhere : refused w.h ws = false)
    {node' : Option Kv} (h : keyEffect ws auth t (w.h.findNode (keyOf ws)) = some (msg, node')) :
    ∃ w', executeWords ws auth t w = some (msg, w') := by
  match ws with
  | [] =>
    obtain ⟨rfl, -⟩ := Prod.mk.inj (Option.some.inj ((keyEffect_keep rfl).symm.trans h))
    exact ⟨w, rfl⟩
  | word :: args =>
    obtain ⟨hctl, hkeyed⟩ := hord word args rfl
    rw [executeWords, if_neg hctl, if_neg (by simpa [refused] using hhere)]
    cases hlook : lookup dispatch word (args.length + 1) with
    | none =>
      rw [keyEffect_keep (keyResult_of_none hlook _)] at h
      obtain ⟨rfl, -⟩ := Prod.mk.inj (Option.some.inj h)
      exact ⟨w, rfl⟩
    | some handler =>
      obtain ⟨f, rfl⟩ := hkeyed handler hlook
      obtain ⟨k, args, rfl⟩ := List.exists_cons_of_ne_nil (args_ne_nil_of_keyed hlook)
      rw [List.length_cons] at hlook
      obtain ⟨r, hr, h⟩ := Option.bind_eq_some_iff.mp h
      obtain ⟨node', hperform, heq⟩ := Option.map_eq_some_iff.mp h
      obtain ⟨rfl, -⟩ := Prod.mk.inj heq
      rw [keyResult, hlook] at hr
      -- the table performs the action, because the entry allows it
      have happly : ((w.h.apply k r.2)).isSome = true := by
        rw [Hash.apply_isSome]
        exact Option.isSome_of_eq_some hperform
      obtain ⟨h', hh'⟩ := Option.isSome_iff_exists.mp happly
      refine ⟨{ w with h := h' }, ?_⟩
      change (f ⟨k, args, auth, t⟩ (w.h.findNode k)).bind _ = _
      rw [show f ⟨k, args, auth, t⟩ (w.h.findNode k) = some r from hr, Option.bind_some]
      change (w.h.apply k r.2).map _ = _
      rw [hh', Option.map_some]

/-- **Two tables that agree on the key of a command** answer it alike, and agree on the key
afterwards. -/
theorem executeWords_alike {v v' : World} (hord : Ordinary ws) (hv : refused v.h ws = false)
    (hw : refused w.h ws = false) (hkey : v.h.findNode (keyOf ws) = w.h.findNode (keyOf ws))
    (h : executeWords ws auth t v = some (msg, v')) :
    ∃ w', executeWords ws auth t w = some (msg, w') ∧
      v'.h.findNode (keyOf ws) = w'.h.findNode (keyOf ws) ∧
      OnlyKey (keyOf ws) v v' ∧ OnlyKey (keyOf ws) w w' := by
  obtain ⟨heffect, honly⟩ := executeWords_ordinary hord hv h
  rw [hkey] at heffect
  obtain ⟨w', hw'⟩ := executeWords_isSome hord hw heffect
  obtain ⟨heffect', honly'⟩ := executeWords_ordinary hord hw hw'
  rw [heffect] at heffect'
  exact ⟨w', hw', (Prod.mk.inj (Option.some.inj heffect')).2, honly, honly'⟩

end Command

end MuseKv
