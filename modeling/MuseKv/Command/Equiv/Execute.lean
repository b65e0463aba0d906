import MuseKv.Command.Basic
import MuseKv.Command.Equiv.Actions

/-!
# What a command may do

`execute_cases` says once what `execute` can do to a table and its file: nothing, one allowed action
under the key of the command, `save`, or `read`.  `findNode_apply` gives the lookups after an action,
so that an action under one key leaves the entries of the others alone.
-/

namespace MuseKv

open Kvstore Command

/-! ### Actions -/

/-- The entry an action leaves under its key. -/
def KeyAction.run : KeyAction → Option Kv → Option Kv
  | keep, node => node
  | del, _ => none
  | set v r w, node => some (Hash.setEntry v r w node)
  | write n, node => node.map fun _ => n

/-- **An action changes the entry of its key**, and no other entry. -/
theorem Hash.findNode_apply {h h' : Hash} {k : Str} {a : KeyAction} (ha : h.apply k a = some h')
    (k' : Str) : h'.findNode k' = if k' = k then a.run (h.findNode k) else h.findNode k' := by
  cases a with
  | keep =>
    obtain rfl := Option.some.inj ha
    split_ifs with hk
    · rw [hk, KeyAction.run]
    · rfl
  | del =>
    rw [findNode_del ha, KeyAction.run]
  | set v r w =>
    obtain rfl := Option.some.inj ha
    rw [findNode_set, KeyAction.run]
  | write n =>
    obtain rfl := Option.some.inj ha
    rw [findNode_alter, KeyAction.run]
    split_ifs with hk
    · rw [hk]
    · rfl

/-- An action keeps the bounds and the port of the table. -/
theorem Hash.apply_bounds {h h' : Hash} {k : Str} {a : KeyAction} (ha : h.apply k a = some h') :
    h'.portNum = h.portNum ∧ h'.startNum = h.startNum ∧ h'.endNum = h.endNum := by
  cases a with
  | keep =>
    obtain rfl := Option.some.inj ha
    exact ⟨rfl, rfl, rfl⟩
  | del =>
    obtain ⟨-, rfl⟩ := del_eq_some ha
    exact ⟨rfl, rfl, rfl⟩
  | set v r w =>
    obtain rfl := Option.some.inj ha
    rw [Hash.set]
    split
    next => exact ⟨rfl, rfl, rfl⟩
    next => exact ⟨rfl, rfl, rfl⟩
  | write n =>
    obtain rfl := Option.some.inj ha
    exact ⟨rfl, rfl, rfl⟩

namespace Command

/-! ### The dispatch table -/

theorem lookup_eq_some {α : Type} {table : List (Str × Arity × α)} {word : Str} {n : ℕ} {x : α}
    (h : lookup table word n = some x) :
    ∃ arity, (word, arity, x) ∈ table ∧ arity.holds n = true := by
  obtain ⟨row, hrow, rfl⟩ := Option.map_eq_some_iff.mp h
  have htest := List.find?_some hrow
  rw [Bool.and_eq_true, decide_eq_true_eq] at htest
  obtain ⟨rfl, harity⟩ := htest
  exact ⟨row.2.1, List.mem_of_find?_eq_some hrow, harity⟩

/-- What holds of each handler of the table holds of the handler that is found. -/
theorem keyed_cases {P : KeyHandler → Prop} (pget : P get) (pmake : P make) (pdel : P del)
    (plmake : P lmake) (plpush : P lpush) (prpush : P rpush) (plpop : P lpop) (prpop : P rpop)
    (plget : P lget) (plset : P lset) (plerase : P lerase) (psmake : P smake) (pspush : P spush)
    (pspop : P spop) (pserase : P serase) (psort : P sort) (phmake : P hmake) (phpush : P hpush)
    (phget : P hget) (phfields : P hfields) (phvals : P hvals) (pherase : P herase)
    (pauthr : P authr) (pauthw : P authw) (pexpire : P expire) (pttl : P getTtl)
    {word : Str} {n : ℕ} {f : KeyHandler} (h : lookup dispatch word n = some (.keyed f)) : P f := by
  have hall : ∀ row ∈ dispatch, ∀ f, row.2.2 = .keyed f → P f := by
    simp only [dispatch, List.forall_mem_cons, Handler.keyed.injEq, forall_eq', reduceCtorEq,
      IsEmpty.forall_iff, implies_true, true_and, List.not_mem_nil, and_true]
    exact ⟨pget, pmake, pmake, pmake, pdel, plmake, plpush, prpush, plpop, prpop, plget, plset,
      plerase, psmake, pspush, pspop, pserase, psort, phmake, phpush, phget, phfields, phvals,
      pherase, pauthr, pauthw, pexpire, pttl⟩
  obtain ⟨arity, hmem, -⟩ := lookup_eq_some h
  exact hall _ hmem f rfl

/-- **Every handler is sound.** -/
theorem handler_sound {word : Str} {n : ℕ} {f : KeyHandler}
    (h : lookup dispatch word n = some (.keyed f)) (c : Call) (node : Option Kv) :
    Sound c node (f c node) :=
  keyed_cases (P := fun f => ∀ c node, Sound c node (f c node)) (fun _ _ => get_sound)
    (fun _ _ => make_sound) (fun _ _ => del_sound) (fun _ _ => lmake_sound)
    (fun _ _ => lpush_sound) (fun _ _ => rpush_sound) (fun _ _ => popList_sound _)
    (fun _ _ => popList_sound _) (fun _ _ => lget_sound) (fun _ _ => lset_sound)
    (fun _ _ => lerase_sound) (fun _ _ => smake_sound) (fun _ _ => spush_sound)
    (fun _ _ => spop_sound) (fun _ _ => serase_sound) (fun _ _ => sort_sound)
    (fun _ _ => hmake_sound) (fun _ _ => hpush_sound) (fun _ _ => hget_sound)
    (fun _ _ => listing_sound _) (fun _ _ => listing_sound _) (fun _ _ => herase_sound)
    (fun _ _ => authr_sound) (fun _ _ => authw_sound) (fun _ _ => expire_sound)
    (fun _ _ => getTtl_sound) h c node

/-- A handler that is looked up has a key among its arguments. -/
theorem args_ne_nil_of_keyed {word : Str} {args : List Str} {f : KeyHandler}
    (h : lookup dispatch word (args.length + 1) = some (.keyed f)) : args ≠ [] := by
  have hall : ∀ row ∈ dispatch, ∀ f, row.2.2 = .keyed f → row.2.1.holds 1 = false := by
    simp [dispatch, Arity.holds]
  rintro rfl
  obtain ⟨arity, hmem, harity⟩ := lookup_eq_some h
  rw [List.length_nil, hall _ hmem f rfl] at harity
  exact Bool.false_ne_true harity

/-- The commands that list the keys. -/
theorem eq_keys_of_lookup {word : Str} {argc : ℕ} (h : lookup dispatch word argc = some .keys) :
    word = lit "xkeys" ∨ word = lit "keys" := by
  have hkeys : (dispatch.filter fun row => row.2.2 matches .keys).map Prod.fst
      = [lit "xkeys", lit "keys"] := rfl
  obtain ⟨arity, hmem, -⟩ := lookup_eq_some h
  have hword : word ∈ (dispatch.filter fun row => row.2.2 matches .keys).map Prod.fst :=
    List.mem_map.mpr ⟨_, List.mem_filter.mpr ⟨hmem, rfl⟩, rfl⟩
  rw [hkeys] at hword
  simpa using hword

/-- The commands that write the file. -/
theorem eq_save_of_lookup {word : Str} {args : List Str}
    (h : lookup dispatch word (args.length + 1) = some .save) :
    word :: args = [lit "save"] ∨ word :: args = [lit "xsave"] := by
  have hall : ∀ row ∈ dispatch, row.2.2 = .save →
      (row.1 = lit "save" ∨ row.1 = lit "xsave") ∧ row.2.1 = .exactly 1 := by
    simp [dispatch]
  obtain ⟨arity, hmem, harity⟩ := lookup_eq_some h
  obtain ⟨hword, rfl⟩ := hall _ hmem rfl
  obtain rfl : args = [] := by simpa [Arity.holds] using harity
  exact hword.imp (congrArg fun word => [word]) (congrArg fun word => [word])

/-- The command that reads the file. -/
theorem eq_read_of_lookup {word : Str} {args : List Str}
    (h : lookup dispatch word (args.length + 1) = some .read) :
    ∃ pw, word :: args = [lit "read", pw] := by
  have hall : ∀ row ∈ dispatch, row.2.2 = .read →
      row.1 = lit "read" ∧ row.2.1 = .exactly 2 := by
    simp [dispatch]
  obtain ⟨arity, hmem, harity⟩ := lookup_eq_some h
  obtain ⟨hword, rfl⟩ := hall _ hmem rfl
  obtain ⟨pw, rfl⟩ : ∃ pw, args = [pw] := List.length_eq_one_iff.mp (by
    simpa [Arity.holds] using harity)
  exact ⟨pw, by rw [show word = lit "read" from hword]⟩

/-! ### Execution -/

/-- A command that names a key runs its handler on the entry of the key. -/
theorem executeWords_keyed {word k : Str} {args : List Str} {f : KeyHandler} {auth : UInt8} {t : Int}
    {w : World} (hctl : word ∉ controlWords) (hhere : notHere w.h k = false)
    (hlook : lookup dispatch word (args.length + 2) = some (.keyed f)) :
    executeWords (word :: k :: args) auth t w = (f ⟨k, args, auth, t⟩ (w.h.findNode k)).bind fun r =>
      (w.h.apply k r.2).map fun h => (r.1, { w with h := h }) := by
  rw [executeWords, if_neg hctl, if_neg (by simp [hhere]), List.length_cons, hlook]
  rfl

/-- One allowed action under the key of the command. -/
def KeyStep (ws : List Str) (auth : UInt8) (currTime : Int) (w : World) (reply : Str)
    (w' : World) : Prop :=
  ∃ word k args f a h', ws = word :: k :: args ∧ notHere w.h k = false ∧
    lookup dispatch word (args.length + 2) = some (.keyed f) ∧
    f ⟨k, args, auth, currTime⟩ (w.h.findNode k) = some (reply, a) ∧
    Allowed ⟨k, args, auth, currTime⟩ (w.h.findNode k) a ∧
    w.h.apply k a = some h' ∧ w' = { w with h := h' }

/-- **What `execute` can do.** -/
theorem executeWords_cases {ws : List Str} {auth : UInt8} {t : Int} {w w' : World} {reply : Str}
    (h : executeWords ws auth t w = some (reply, w')) :
    w' = w ∨ KeyStep ws auth t w reply w' ∨
      ((ws = [lit "save"] ∨ ws = [lit "xsave"]) ∧ ∃ b, w.save = some (b, w')) ∨
      ∃ pw b, ws = [lit "read", pw] ∧ w.read pw = some (b, w') := by
  match ws with
  | [] => exact Or.inl (congrArg Prod.snd (Option.some.inj h)).symm
  | word :: args =>
    rw [executeWords] at h
    split_ifs at h with hctl hhash
    · exact Or.inl (congrArg Prod.snd (Option.some.inj h)).symm
    · exact Or.inl (congrArg Prod.snd (Option.some.inj h)).symm
    · split at h
      next => exact Or.inl (congrArg Prod.snd (Option.some.inj h)).symm
      next handler hlook =>
        cases handler with
        | keyed f =>
          obtain ⟨k, args, rfl⟩ := List.exists_cons_of_ne_nil (args_ne_nil_of_keyed hlook)
          obtain ⟨r, hr, h⟩ := Option.bind_eq_some_iff.mp h
          obtain ⟨h', hh', heq⟩ := Option.map_eq_some_iff.mp h
          obtain ⟨rfl, rfl⟩ := Prod.mk.inj heq
          -- the one action of the handler is performed under the key
          have hsound := handler_sound hlook ⟨k, args, auth, t⟩ (w.h.findNode k) r.1 r.2 hr
          exact Or.inr (Or.inl ⟨word, k, args, f, r.2, h', rfl, by simpa using hhash, hlook, hr,
            hsound, hh', rfl⟩)
        | keys => exact Or.inl (congrArg Prod.snd (Option.some.inj h)).symm
        | save =>
          obtain ⟨r, hr, heq⟩ := Option.map_eq_some_iff.mp h
          obtain ⟨-, rfl⟩ := Prod.mk.inj heq
          exact Or.inr (Or.inr (Or.inl ⟨eq_save_of_lookup hlook, r.1, hr⟩))
        | read =>
          obtain ⟨pw, hws⟩ := eq_read_of_lookup hlook
          obtain ⟨-, rfl⟩ := List.cons.inj hws
          obtain ⟨r, hr, heq⟩ := Option.map_eq_some_iff.mp h
          obtain ⟨-, rfl⟩ := Prod.mk.inj heq
          exact Or.inr (Or.inr (Or.inr ⟨pw, r.1, hws, hr⟩))

/-- `save` leaves the table alone. -/
theorem save_h {w w' : World} {b : Bool} (h : w.save = some (b, w')) : w'.h = w.h := by
  rw [World.save] at h
  split_ifs at h
  · obtain ⟨text, -, heq⟩ := Option.map_eq_some_iff.mp h
    obtain ⟨-, rfl⟩ := Prod.mk.inj heq
    rfl
  · obtain ⟨-, rfl⟩ := Prod.mk.inj (Option.some.inj h)
    rfl

/-! ### Runs -/

/-- What every command of a run preserves, the run preserves. -/
theorem runAll_invariant {P : World → Prop} {rs : List Request}
    (hstep : ∀ r ∈ rs, ∀ w w' reply, P w → execute r.com r.auth r.currTime w = some (reply, w') →
      P w')
    {w w' : World} {replies : List Str} (hw : P w) (h : runAll rs w = some (replies, w')) : P w' := by
  induction rs generalizing w replies with
  | nil =>
    obtain ⟨-, rfl⟩ := Prod.mk.inj (Option.some.inj h)
    exact hw
  | cons r rs ih =>
    obtain ⟨x, hx, h⟩ := Option.bind_eq_some_iff.mp h
    obtain ⟨y, hy, heq⟩ := Option.map_eq_some_iff.mp h
    obtain ⟨-, rfl⟩ := Prod.mk.inj heq
    exact ih (fun r hr => hstep r (List.mem_cons_of_mem _ hr))
      (hstep r (List.mem_cons_self ..) w x.2 x.1 hw hx) hy

end Command

end MuseKv
