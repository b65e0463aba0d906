import MuseKv.Command.Stored
import MuseKv.Command.Equiv.Execute
import MuseKv.Command.Replay

/-!
# Creating and pushing

`lmake`, `smake` and `hmake` join their arguments by commas and cut the text at its commas; `rpush`,
`spush` and `hpush` store their arguments as they are.  What is created is made of the pieces of the
arguments (`execute_lmake`, `execute_smake`, `execute_hmake`), and what is pushed of the arguments
(`after_rpush`, `after_spush`, `after_hpush`), so the two agree exactly when no argument contains a
comma (`createsAlike_iff`).
-/

namespace MuseKv

open Kvstore Command

namespace Command

/-! ### Lines of words -/

/-- An argument: a text without a blank. -/
def IsWord (x : Str) : Prop := x ≠ [] ∧ ∀ c ∈ x, isBlank c = false

/-- The command line with some words. -/
def comLine (ws : List Str) : Str := merge (byte ' ') ws

theorem words_comLine {ws : List Str} (h : ∀ x ∈ ws, IsWord x) : words (comLine ws) = ws := by
  induction ws with
  | nil => exact words_nil
  | cons x ws ih =>
    obtain ⟨hne, hblank⟩ := h x (List.mem_cons_self ..)
    have htail := ih fun y hy => h y (List.mem_cons_of_mem _ hy)
    by_cases hnil : ws = []
    · rw [hnil, comLine, merge_singleton, words_eq_singleton hne hblank]
    · rw [comLine, merge_cons _ x hnil, words_cons_blank hne hblank, ← comLine, htail]

/-- The lines are executed one after the other, with the same authority and at the same time. -/
def afterLines (lines : List (List Str)) (a : UInt8) (t : Int) (w : World) : Option World :=
  (runAll (lines.map fun ws => ⟨comLine ws, a, t⟩) w).map Prod.snd

theorem after_cons (ws : List Str) (lines : List (List Str)) (a : UInt8) (t : Int) (w : World) :
    afterLines (ws :: lines) a t w = (execute (comLine ws) a t w).bind fun x => afterLines lines a t x.2 := by
  rw [afterLines, List.map_cons, runAll, Option.map_bind]
  refine Option.bind_congr fun x _ => ?_
  rw [Function.comp_apply, Option.map_map]
  rfl

/-- The value under a key. -/
def valueAt (w : World) (k : Str) : Option Value := (w.h.findNode k).map Kv.v

/-! ### Actions that succeed -/

variable {word k : Str} {args : List Str} {f : KeyHandler} {a : UInt8} {t : Int} {w w' : World}
  {msg : Str} {v u : Value}

/-- A key that may be created or replaced. -/
def Creatable (w : World) (k : Str) (a : UInt8) : Prop :=
  notHere w.h k = false ∧ ∀ n, w.h.findNode k = some n → n.authw ≤ a

/-- A live entry with a value, to which may be written. -/
def HoldsAt (w : World) (k : Str) (v : Value) (a : UInt8) (t : Int) : Prop :=
  notHere w.h k = false ∧
    ∃ n, w.h.findNode k = some n ∧ n.v = v ∧ n.isExpired t = false ∧ n.authw ≤ a

theorem HoldsAt.valueAt (h : HoldsAt w k v a t) : valueAt w k = some v := by
  obtain ⟨-, n, hn, hv, -⟩ := h
  rw [Command.valueAt, hn, Option.map_some, hv]

/-- The word of a command that writes. -/
theorem isWord_writeWord (h : word ∈ writeWords) : IsWord word ∧ word ∉ controlWords := by
  have hall : ∀ word ∈ writeWords, (word ≠ [] ∧ word.all (fun c => !isBlank c) = true) ∧
      word ∉ controlWords := by decide
  obtain ⟨⟨hne, hblank⟩, hctl⟩ := hall word h
  exact ⟨⟨hne, not_blank_of_all hblank⟩, hctl⟩

/-- **A line runs its handler** on the entry of its key. -/
theorem execute_comLine (hword : word ∈ writeWords) (hk : IsWord k) (hargs : ∀ x ∈ args, IsWord x)
    (hlook : lookup dispatch word (args.length + 2) = some (.keyed f))
    (hhere : notHere w.h k = false) :
    execute (comLine (word :: k :: args)) a t w = (f ⟨k, args, a, t⟩ (w.h.findNode k)).bind fun r =>
      (w.h.apply k r.2).map fun h => (r.1, { w with h := h }) := by
  obtain ⟨hisWord, hctl⟩ := isWord_writeWord hword
  have hws : ∀ x ∈ word :: k :: args, IsWord x :=
    List.forall_mem_cons.mpr ⟨hisWord, List.forall_mem_cons.mpr ⟨hk, hargs⟩⟩
  rw [execute, words_comLine hws, executeWords_keyed hctl hhere hlook]

/-- A command that sets an entry. -/
theorem execute_set (hword : word ∈ writeWords) (hk : IsWord k) (hargs : ∀ x ∈ args, IsWord x)
    (hlook : lookup dispatch word (args.length + 2) = some (.keyed f))
    (hhere : notHere w.h k = false)
    (hf : f ⟨k, args, a, t⟩ (w.h.findNode k) = some (msg, .set v 0 a)) :
    ∃ w', execute (comLine (word :: k :: args)) a t w = some (msg, w') ∧ valueAt w' k = some v := by
  refine ⟨{ w with h := w.h.set k v 0 a }, ?_, ?_⟩
  · rw [execute_comLine hword hk hargs hlook hhere, hf]
    rfl
  · rw [valueAt, Hash.findNode_set, if_pos rfl]
    cases w.h.findNode k with
    | none => rfl
    | some n => rfl

/-- A command that writes to an entry. -/
theorem execute_write (hword : word ∈ writeWords) (hk : IsWord k) (hargs : ∀ x ∈ args, IsWord x)
    (hlook : lookup dispatch word (args.length + 2) = some (.keyed f)) (hw : HoldsAt w k v a t)
    (hf : ∀ n : Kv, n.v = v → n.isExpired t = false → n.authw ≤ a →
      f ⟨k, args, a, t⟩ (some n) = some (confirmMsg, .write (n.setV u))) :
    ∃ w', execute (comLine (word :: k :: args)) a t w = some (confirmMsg, w') ∧
      HoldsAt w' k u a t := by
  obtain ⟨hhere, n, hn, hv, hlive, hauth⟩ := hw
  refine ⟨{ w with h := w.h.alter k fun _ => n.setV u }, ?_, hhere, n.setV u, ?_, rfl, hlive, hauth⟩
  · rw [execute_comLine hword hk hargs hlook hhere, hn, hf n hv hlive hauth]
    rfl
  · rw [Hash.findNode_alter, if_pos rfl, hn]
    rfl

/-! ### What is created -/

/-- The arguments that are joined are cut into their pieces. -/
theorem splitData_pieces (hne : args ≠ []) (hargs : ∀ x ∈ args, IsWord x) :
    Value.splitData (Call.joined ⟨k, args, a, t⟩) = some (pieces args) := by
  obtain ⟨x, xs, rfl⟩ := List.exists_cons_of_ne_nil hne
  have hmerge : merge (byte ',') (x :: xs) ≠ [] := by
    rw [Ne, merge_eq_nil, not_or]
    exact ⟨hne, fun heq => (hargs x (List.mem_cons_self ..)).1 (List.cons.inj heq).1⟩
  have hjoin : Call.joined ⟨k, x :: xs, a, t⟩ = merge (byte ',') (x :: xs) := joinArgs_eq x xs
  rw [hjoin, splitData_eq_some, split_of_ne_nil hmerge, splitOn_merge _ hne]
  exact ⟨hmerge, rfl⟩

/-- `lmake` leaves the list of the pieces, and replies the number of the arguments. -/
theorem execute_lmake (hk : IsWord k) (hne : args ≠ []) (hargs : ∀ x ∈ args, IsWord x)
    (hw : Creatable w k a) :
    ∃ w', execute (comLine (lit "lmake" :: k :: args)) a t w = some (toStr args.length, w') ∧
      valueAt w' k = some (.list (pieces args)) := by
  have hlook : lookup dispatch (lit "lmake") (args.length + 2) = some (.keyed lmake) := by
    obtain ⟨x, xs, rfl⟩ := List.exists_cons_of_ne_nil hne
    rfl
  refine execute_set (by decide) hk hargs hlook hw.1 ?_
  rw [lmake, overwritable_of_le hw.2, Value.dataEncode, splitData_pieces hne hargs, Option.map_some,
    Option.map_some, foldl_pushBack, List.nil_append]

/-- `smake` leaves the set of the pieces, and replies its length. -/
theorem execute_smake (hk : IsWord k) (hne : args ≠ []) (hargs : ∀ x ∈ args, IsWord x)
    (hw : Creatable w k a) :
    ∃ w', execute (comLine (lit "smake" :: k :: args)) a t w =
        some (toStr ((pieces args).foldl Hashset.push Hashset.empty).getLength, w') ∧
      valueAt w' k = some (.set ((pieces args).foldl Hashset.push Hashset.empty)) := by
  have hlook : lookup dispatch (lit "smake") (args.length + 2) = some (.keyed smake) := by
    obtain ⟨x, xs, rfl⟩ := List.exists_cons_of_ne_nil hne
    rfl
  refine execute_set (by decide) hk hargs hlook hw.1 ?_
  rw [smake, overwritable_of_le hw.2, splitData_pieces hne hargs, Option.map_some]

/-- The arguments `f1 v1 .. fm vm`. -/
def flatten (pairs : List (Str × Str)) : List Str := pairs.flatMap fun p => [p.1, p.2]

/-- `hmake` leaves the map of the pieces. -/
theorem execute_hmake {pairs : List (Str × Str)} (hk : IsWord k) (hne : pairs ≠ [])
    (hargs : ∀ x ∈ flatten pairs, IsWord x) (hw : Creatable w k a) :
    ∃ w', execute (comLine (lit "hmake" :: k :: flatten pairs)) a t w = some (confirmMsg, w') ∧
      valueAt w' k = some (.hashmap (Value.setPairs (pieces (flatten pairs)) Hashmap.empty)) := by
  obtain ⟨p, ps, rfl⟩ := List.exists_cons_of_ne_nil hne
  have hne' : flatten (p :: ps) ≠ [] := List.cons_ne_nil _ _
  have heven : (flatten (p :: ps)).length % 2 = 0 := by
    rw [flatten, List.length_flatMap]
    simp
  refine execute_set (f := hmake) (by decide) hk hargs rfl hw.1 ?_
  rw [hmake, if_neg (by dsimp only; omega), overwritable_of_le hw.2, Value.dataEncode,
    splitData_pieces hne' hargs, Option.map_some, Option.map_some]

/-! ### What is pushed -/

/-- A run of commands that each push something. -/
theorem after_pushes {γ β : Type} (inj : γ → Value) (step : γ → β → γ) (lineOf : β → List Str)
    {bs : List β} {s : γ} (hw : HoldsAt w k (inj s) a t)
    (hstep : ∀ b ∈ bs, ∀ w s, HoldsAt w k (inj s) a t →
      ∃ w', execute (comLine (lineOf b)) a t w = some (confirmMsg, w') ∧
        HoldsAt w' k (inj (step s b)) a t) :
    ∃ w', afterLines (bs.map lineOf) a t w = some w' ∧ valueAt w' k = some (inj (bs.foldl step s)) := by
  induction bs generalizing w s with
  | nil => exact ⟨w, rfl, hw.valueAt⟩
  | cons b bs ih =>
    obtain ⟨w', hexec, hholds⟩ := hstep b (List.mem_cons_self ..) w s hw
    obtain ⟨w'', hafter, hvalue⟩ := ih hholds fun b hb => hstep b (List.mem_cons_of_mem _ hb)
    refine ⟨w'', ?_, hvalue⟩
    rw [List.map_cons, after_cons, hexec, Option.bind_some, hafter]

/-- `rpush k x2 .. xn`, unless there is nothing to push. -/
def rpushes (k : Str) (xs : List Str) : List (List Str) :=
  if xs = [] then [] else [lit "rpush" :: k :: xs]

theorem after_rpush {l xs : List Str} (hk : IsWord k) (hargs : ∀ x ∈ xs, IsWord x)
    (hw : HoldsAt w k (.list l) a t) :
    ∃ w', afterLines (rpushes k xs) a t w = some w' ∧ valueAt w' k = some (.list (l ++ xs)) := by
  rw [rpushes]
  split_ifs with hnil
  · rw [hnil, List.append_nil]
    exact ⟨w, rfl, hw.valueAt⟩
  · have hlook : lookup dispatch (lit "rpush") (xs.length + 2) = some (.keyed rpush) := by
      obtain ⟨x, xs, rfl⟩ := List.exists_cons_of_ne_nil hnil
      rfl
    obtain ⟨w', hexec, hholds⟩ := execute_write (u := .list (l ++ xs)) (by decide) hk hargs hlook hw
      (by
        intro n hv hlive hauth
        rw [rpush, onList, live_of_not_expired (c := ⟨k, xs, a, t⟩) hlive, hv]
        dsimp only
        rw [permitted_of_le (c := ⟨k, xs, a, t⟩) hauth, foldl_pushBack])
    refine ⟨w', ?_, hholds.valueAt⟩
    rw [after_cons, hexec]
    rfl

theorem after_spush {s : Hashset} (hk : IsWord k) (hargs : ∀ x ∈ args, IsWord x)
    (hw : HoldsAt w k (.set s) a t) :
    ∃ w', afterLines (args.map fun x => [lit "spush", k, x]) a t w = some w' ∧
      valueAt w' k = some (.set (args.foldl Hashset.push s)) := by
  refine after_pushes .set Hashset.push _ hw fun x hx w s hs => ?_
  refine execute_write (f := spush) (by decide) hk (List.forall_mem_singleton.mpr (hargs x hx)) rfl hs ?_
  intro n hv hlive hauth
  rw [spush, onSet, live_of_not_expired (c := ⟨k, [x], a, t⟩) hlive, hv]
  dsimp only
  rw [permitted_of_le hauth, List.foldl_cons, List.foldl_nil]

theorem after_hpush {pairs : List (Str × Str)} {m : Hashmap} (hk : IsWord k)
    (hargs : ∀ x ∈ flatten pairs, IsWord x) (hw : HoldsAt w k (.hashmap m) a t) :
    ∃ w', afterLines (pairs.map fun p => [lit "hpush", k, p.1, p.2]) a t w = some w' ∧
      valueAt w' k = some (.hashmap (pairs.foldl (fun m p => m.setFv p.1 p.2) m)) := by
  refine after_pushes .hashmap _ _ hw fun p hp w m hm => ?_
  have hpair : ∀ x ∈ [p.1, p.2], IsWord x := fun x hx => hargs x (List.mem_flatMap.mpr ⟨p, hp, hx⟩)
  refine execute_write (f := hpush) (by decide) hk hpair rfl hm ?_
  intro n hv hlive hauth
  rw [hpush, onHashmap, live_of_not_expired (c := ⟨k, [p.1, p.2], a, t⟩) hlive, hv]
  dsimp only
  rw [permitted_of_le hauth]
  rfl

theorem setPairs_flatten (pairs : List (Str × Str)) (m : Hashmap) :
    Value.setPairs (flatten pairs) m = pairs.foldl (fun m p => m.setFv p.1 p.2) m := by
  induction pairs generalizing m with
  | nil => rfl
  | cons p ps ih => exact ih (m.setFv p.1 p.2)

/-! ### Creating against pushing -/

/-- **Creating leaves what pushing leaves**: `lmake` what `rpush` makes of a list of the first argument,
`smake` what `spush` makes of an empty set, and `hmake` what `hpush` makes of an empty map; and `lmake`
and `smake` reply the number of the elements. -/
structure CreatesAlike (k x : Str) (xs : List Str) (a : UInt8) (t : Int) (w wl ws wm : World) :
    Prop where
  list : ∃ w' wl' l, execute (comLine (lit "lmake" :: k :: x :: xs)) a t w
      = some (toStr l.length, w') ∧ valueAt w' k = some (.list l) ∧
    afterLines (rpushes k xs) a t wl = some wl' ∧ valueAt wl' k = some (.list l)
  set : ∃ w' ws' s, execute (comLine (lit "smake" :: k :: x :: xs)) a t w
      = some (toStr s.elements.length, w') ∧ valueAt w' k = some (.set s) ∧
    afterLines ((x :: xs).map fun x => [lit "spush", k, x]) a t ws = some ws' ∧
      valueAt ws' k = some (.set s)
  hashmap : ∀ pairs, flatten pairs = x :: xs → ∃ w' wm' m,
    execute (comLine (lit "hmake" :: k :: x :: xs)) a t w = some (confirmMsg, w') ∧
      valueAt w' k = some (.hashmap m) ∧
      afterLines (pairs.map fun p => [lit "hpush", k, p.1, p.2]) a t wm = some wm' ∧
      valueAt wm' k = some (.hashmap m)

theorem length_elements (s : Hashset) : s.elements.length = s.getLength := by
  rw [Hashset.elements, List.length_flatMap, Hashset.getLength]

variable {x : Str} {xs : List Str} {wl ws wm : World}

/-- Pieces that are the arguments contain no comma. -/
theorem pieces_eq_self_iff : pieces args = args ↔ ∀ x ∈ args, byte ',' ∉ x := by
  constructor
  · intro h x hx
    rw [← h] at hx
    exact free_of_mem_flatMap_splitOn x hx
  · exact flatMap_splitOn_of_free

/-- **Creating agrees with pushing if and only if** no argument contains a comma. -/
theorem createsAlike_iff (hk : IsWord k) (hargs : ∀ y ∈ x :: xs, IsWord y) (hw : Creatable w k a)
    (hl : HoldsAt wl k (.list [x]) a t) (hs : HoldsAt ws k (.set Hashset.empty) a t)
    (hm : HoldsAt wm k (.hashmap Hashmap.empty) a t) :
    CreatesAlike k x xs a t w wl ws wm ↔ ∀ y ∈ x :: xs, byte ',' ∉ y := by
  have hne : x :: xs ≠ [] := List.cons_ne_nil x xs
  have hpushed := after_rpush hk (fun y hy => hargs y (List.mem_cons_of_mem _ hy)) hl
  rw [← pieces_eq_self_iff]
  constructor
  · intro h
    -- the lists alone show it: `lmake` splits what `rpush` takes as it is
    obtain ⟨w', wl', l, hmake, hleft, hpush, hright⟩ := h.list
    obtain ⟨w'', hmake', hleft'⟩ := execute_lmake (t := t) hk hne hargs hw
    obtain ⟨wl'', hpush', hright'⟩ := hpushed
    rw [hmake', Option.some_inj, Prod.mk.injEq] at hmake
    rw [hpush', Option.some_inj] at hpush
    rw [← hmake.2, hleft', Option.some_inj, Value.list.injEq] at hleft
    rw [← hpush, hright', Option.some_inj, Value.list.injEq] at hright
    rw [hleft, ← hright, List.singleton_append]
  · intro hfree
    refine ⟨?_, ?_, ?_⟩
    · obtain ⟨w', hmake, hleft⟩ := execute_lmake (t := t) hk hne hargs hw
      obtain ⟨wl', hpush, hright⟩ := hpushed
      rw [hfree] at hleft
      exact ⟨w', wl', x :: xs, hmake, hleft, hpush, hright⟩
    · obtain ⟨w', hmake, hleft⟩ := execute_smake (t := t) hk hne hargs hw
      obtain ⟨ws', hpush, hright⟩ := after_spush hk hargs hs
      rw [hfree, ← length_elements] at hmake
      rw [hfree] at hleft
      exact ⟨w', ws', _, hmake, hleft, hpush, hright⟩
    · intro pairs hpairs
      have hpairs' : pairs ≠ [] := by
        rintro rfl
        exact absurd hpairs (by simp [flatten])
      rw [← hpairs] at hargs hfree ⊢
      obtain ⟨w', hmake, hleft⟩ := execute_hmake (t := t) hk hpairs' hargs hw
      obtain ⟨wm', hpush, hright⟩ := after_hpush hk hargs hm
      rw [hfree, setPairs_flatten] at hleft
      exact ⟨w', wm', _, hmake, hleft, hpush, hright⟩

/-- A store with one entry. -/
def single (k : Str) (v : Value) : World :=
  { World.fresh 8000 with h := (World.fresh 8000).h.set k v 0 0 }

theorem holdsAt_single (v : Value) : HoldsAt (single (lit "k") v) (lit "k") v 0 0 := by
  have hset := Hash.findNode_set (Hash.new 8000) (lit "k") v 0 0 (lit "k")
  rw [if_pos rfl, Hash.findNode_new] at hset
  exact ⟨rfl, _, hset, rfl, rfl, UInt8.le_refl 0⟩

/-- Two arguments without a comma. -/
theorem createsAlike_pair : CreatesAlike (lit "k") (lit "b") [lit "a"] 0 0 (World.fresh 8000)
    (single (lit "k") (.list [lit "b"])) (single (lit "k") (.set Hashset.empty))
    (single (lit "k") (.hashmap Hashmap.empty)) := by
  have hword : ∀ y ∈ [lit "b", lit "a"], y ≠ [] ∧ y.all (fun c => !isBlank c) = true := by decide
  refine (createsAlike_iff ⟨by decide, not_blank_of_all (by decide)⟩
    (fun y hy => ⟨(hword y hy).1, not_blank_of_all (hword y hy).2⟩) ⟨rfl, fun n hn => ?_⟩
    (holdsAt_single _) (holdsAt_single _) (holdsAt_single _)).mpr (by decide)
  exact absurd hn (by simp [World.fresh])

/-- **An argument with a comma is two elements** to `lmake` and one to `rpush`. -/
theorem not_createsAlike_comma : ¬ ∀ (k x : Str) (xs : List Str) (a : UInt8) (t : Int)
    (w wl ws wm : World), IsWord k → (∀ y ∈ x :: xs, IsWord y) → Creatable w k a →
    HoldsAt wl k (.list [x]) a t → HoldsAt ws k (.set Hashset.empty) a t →
    HoldsAt wm k (.hashmap Hashmap.empty) a t → CreatesAlike k x xs a t w wl ws wm := by
  intro h
  have hword : IsWord (lit "a,b") := ⟨by decide, not_blank_of_all (by decide)⟩
  have hfresh : Creatable (World.fresh 8000) (lit "k") 0 :=
    ⟨rfl, fun n hn => absurd hn (by simp [World.fresh])⟩
  obtain ⟨w', hmake, hvalue⟩ : ∃ w',
      execute (comLine [lit "lmake", lit "k", lit "a,b"]) 0 0 (World.fresh 8000)
          = some (lit "1", w') ∧ valueAt w' (lit "k") = some (.list [lit "a", lit "b"]) :=
    ⟨_, rfl, rfl⟩
  obtain ⟨w'', wl', l, hmake', hvalue', -⟩ := (h (lit "k") (lit "a,b") [] 0 0 (World.fresh 8000) _ _ _
    ⟨by decide, not_blank_of_all (by decide)⟩ (List.forall_mem_singleton.mpr hword) hfresh
    (holdsAt_single _) (holdsAt_single _) (holdsAt_single _)).list
  rw [hmake, Option.some_inj, Prod.mk.injEq] at hmake'
  rw [← hmake'.2, hvalue, Option.some_inj, Value.list.injEq] at hvalue'
  rw [← hvalue'] at hmake'
  exact absurd hmake'.1 (by decide)

end Command

end MuseKv
