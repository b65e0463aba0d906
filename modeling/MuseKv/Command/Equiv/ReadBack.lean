import MuseKv.Command.Equiv.Answers
import MuseKv.Command.Equiv.Replay
import MuseKv.Command.Equiv.RoundTrip
import MuseKv.Hash.Equiv.Record

/-!
# Reading back what was stored

`make` and `lmake` store a text under a key, and `get` shows it.  `set` keeps the lifetime of the
entry it overwrites, and neither command tests it: over an expired entry the new text is expired as
well, and `get` removes it (`readBack_iff`).
-/

namespace MuseKv

open Kvstore Command

namespace Command

/-- The words of a command that stores something under `k`, and the text that shows it. -/
inductive Stores (k : Str) : Str → List Str → Prop
  | make {v : Str} {rest : List Str} : Stores k v (lit "make" :: k :: v :: rest)
  | lmake {x : Str} {xs : List Str} :
      Stores k (merge (byte ',') (x :: xs)) (lit "lmake" :: k :: x :: xs)

/-- A reply with an error. -/
def IsError (msg : Str) : Prop := lit "ERROR" <+: msg

instance (msg : Str) : Decidable (IsError msg) := inferInstanceAs (Decidable (_ <+: _))

variable {k v com com' : Str} {ws : List Str} {a : UInt8} {t : Int} {w w' : World} {msg : Str}
  {node : Option Kv}

/-! ### Storing -/

/-- An error, or an entry whose value shows the text. -/
def Shows (v msg : Str) (act : KeyAction) : Prop :=
  IsError msg ∨ ∃ value r w, act = .set value r w ∧ value.dataDecode = some v

theorem shows_refusal {msg : Str} {act : KeyAction} (h : IsError msg) : Shows v msg act := Or.inl h

theorem shows_set {msg : Str} {value : Value} {r w : UInt8} (h : value.dataDecode = some v) :
    Shows v msg (.set value r w) := Or.inr ⟨value, r, w, rfl, h⟩

theorem make_shows (k : Str) (rest : List Str) :
    Answers (Shows v) (make ⟨k, v :: rest, a, t⟩ node) := by
  refine .overwritable (shows_refusal (by decide)) ?_
  match rest with
  | [] => exact .act (shows_set rfl)
  | [arg3] =>
    exact .withInt (shows_refusal (by decide)) fun _ _ =>
      .ite (fun _ => .act (shows_refusal (by decide))) fun _ =>
        .withinAuth (shows_refusal (by decide)) fun _ => .act (shows_set rfl)
  | [arg3, arg4] =>
    dsimp only
    split
    next =>
      exact .ite (fun _ => .act (shows_refusal (by decide))) fun _ =>
        .ite (fun _ => .act (shows_refusal (by decide))) fun _ =>
          .withinAuth (shows_refusal (by decide)) fun _ =>
            .withinAuth (shows_refusal (by decide)) fun _ =>
              .ite (fun _ => .act (shows_refusal (by decide))) fun _ => .act (shows_set rfl)
    next => exact .fault
  | _ :: _ :: _ :: _ => exact .fault

/-- The list made of a text shows the text. -/
theorem dataDecode_of_dataEncode_list {str : Str} {value : Value}
    (h : Value.dataEncode str .list = some value) : value.dataDecode = some str := by
  obtain ⟨l, hl, rfl⟩ := Option.map_eq_some_iff.mp h
  obtain ⟨hne, rfl⟩ := splitData_eq_some.mp hl
  have hprint : Linkedlist.print (split str (byte ',')) = str := merge_split hne _
  rw [foldl_pushBack, List.nil_append, Value.dataDecode, hprint, Value.orEmpty, if_pos hne]

theorem lmake_shows (k x : Str) (xs : List Str) :
    Answers (Shows (merge (byte ',') (x :: xs))) (lmake ⟨k, x :: xs, a, t⟩ node) := by
  refine .overwritable (shows_refusal (by decide)) (.map fun value hvalue => shows_set ?_)
  rw [← joinArgs_eq]
  exact dataDecode_of_dataEncode_list hvalue

/-- The rows of `make`. -/
theorem eq_make_of_lookup {n : ℕ} {handler : Handler}
    (h : lookup dispatch (lit "make") n = some handler) : handler = .keyed make := by
  obtain ⟨arity, hmem, -⟩ := lookup_eq_some h
  have hrow : (lit "make", arity, handler) ∈ dispatch.filter fun row => row.1 = lit "make" :=
    List.mem_filter.mpr ⟨hmem, decide_eq_true rfl⟩
  have hrows : (dispatch.filter fun row => row.1 = lit "make").map (fun row => row.2.2)
      = [.keyed make, .keyed make, .keyed make] := rfl
  have hmap : handler ∈ [Handler.keyed make, .keyed make, .keyed make] :=
    hrows ▸ List.mem_map.mpr ⟨_, hrow, rfl⟩
  simpa using hmap

/-- **What a storing command does**, unless it answers with an error: it sets an entry that shows the
text, with levels within the authority. -/
theorem keyResult_stores (hstores : Stores k v ws) {act : KeyAction}
    (h : keyResult ws a t node = some (msg, act)) (hok : ¬ IsError msg) :
    ∃ value r w, act = .set value r w ∧ value.dataDecode = some v ∧ r ≤ w ∧ w ≤ a := by
  have hshows : Shows v msg act := by
    cases hstores with
    | @make _ rest =>
      rw [keyResult] at h
      split at h
      next f hlook =>
        obtain rfl : f = make := Handler.keyed.inj (eq_make_of_lookup hlook)
        exact make_shows k rest _ _ h
      next =>
        obtain ⟨rfl, -⟩ := Prod.mk.inj (Option.some.inj h)
        exact absurd (by decide) hok
    | @lmake x xs =>
      have hlook : lookup dispatch (lit "lmake") ((x :: xs).length + 2) = some (.keyed lmake) :=
        rfl
      rw [keyResult, hlook] at h
      exact lmake_shows k x xs _ _ h
  obtain hbad | ⟨value, r, w, rfl, hv⟩ := hshows
  · exact absurd hbad hok
  · obtain ⟨_, _, hall⟩ := keyResult_allowed h
    obtain ⟨hrw, hw⟩ := hall.set_levels
    exact ⟨value, r, w, rfl, hv, hrw, hw⟩

/-! ### Showing -/

/-- `get` on an entry that it may read: the text, or the message that there is no such key. -/
theorem get_eq {n : Kv} (hr : n.authr ≤ a) (hv : n.v.dataDecode = some v) :
    get ⟨k, [], a, t⟩ (some n)
      = if n.isExpired t then some (noSuchKey k, .del) else some (v, .keep) := by
  rw [get, live, permitted_of_le (c := ⟨k, [], a, t⟩) hr, hv]
  rfl

theorem execute_get (hget : words com = [lit "get", k]) (hhere : notHere w.h k = false) :
    execute com a t w = (get ⟨k, [], a, t⟩ (w.h.findNode k)).bind fun r =>
      (w.h.apply k r.2).map fun h => (r.1, { w with h := h }) := by
  rw [execute, hget, executeWords_keyed (by decide) hhere rfl]

/-- A text that is stored has no blank. -/
theorem blank_not_mem (hstores : Stores k v (words com)) : byte ' ' ∉ v := by
  have hword : ∀ x ∈ words com, byte ' ' ∉ x := by
    intro x hx hmem
    exact absurd (mem_words hx _ hmem).1 (by decide)
  generalize words com = ws at hstores hword
  cases hstores with
  | make => exact hword v (by simp)
  | lmake =>
    intro hmem
    rcases mem_merge hmem with hcomma | ⟨y, hy, hblank⟩
    · exact absurd hcomma (by decide)
    · exact hword y (List.mem_cons_of_mem _ (List.mem_cons_of_mem _ hy)) hblank

/-- **What was stored is read back if and only if** the key has no expired entry. -/
theorem readBack_iff (hstores : Stores k v (words com)) (hget : words com' = [lit "get", k])
    (hhere : notHere w.h k = false) (h : execute com a t w = some (msg, w')) (hok : ¬ IsError msg) :
    (∃ w'', execute com' a t w' = some (v, w'')) ↔
      ∀ n, w.h.findNode k = some n → n.isExpired t = false := by
  have hblank := blank_not_mem hstores
  obtain ⟨hsend, hkey, hrefused⟩ : Sendable (words com) ∧ keyOf (words com) = k ∧
      refused w.h (words com) = false := by
    generalize words com = ws at hstores
    cases hstores with
    | make => exact ⟨fun _ hw => Option.some.inj hw ▸ by decide, rfl, hhere⟩
    | lmake => exact ⟨fun _ hw => Option.some.inj hw ▸ by decide, rfl, hhere⟩
  obtain ⟨act, hact, hfind, hstart, hend⟩ := findNode_of_write hsend hrefused h
  obtain ⟨value, r, lw, rfl, hv, hrw, hlw⟩ := keyResult_stores hstores hact hok
  -- the entry that the first command leaves, and what `get` makes of it
  have hnode : w'.h.findNode k = some (Hash.setEntry value r lw (w.h.findNode k)) := by
    rw [hfind, if_pos hkey.symm, hkey]
    rfl
  have hhere' : notHere w'.h k = false := by rw [notHere, hstart, hend, ← notHere, hhere]
  have hread : (Hash.setEntry value r lw (w.h.findNode k)).authr ≤ a := by
    rw [(Hash.setEntry_levels value hrw _).1]
    exact UInt8.le_trans hrw hlw
  have hvalue : (Hash.setEntry value r lw (w.h.findNode k)).v.dataDecode = some v := by
    rw [← hv]
    cases w.h.findNode k with
    | none => rfl
    | some n => rfl
  rw [execute_get hget hhere', hnode, get_eq hread hvalue, Hash.isExpired_setEntry]
  have hiff : (∀ n, w.h.findNode k = some n → n.isExpired t = false) ↔
      ((w.h.findNode k).any fun n => n.isExpired t) = false := by
    cases w.h.findNode k with
    | none => simp
    | some n => simp
  rw [hiff]
  cases hexp : (w.h.findNode k).any fun n => n.isExpired t with
  | false =>
    rw [if_neg Bool.false_ne_true]
    exact iff_of_true ⟨_, rfl⟩ rfl
  | true =>
    rw [if_pos rfl]
    -- the expired entry gives the reply that there is no such key, which has a blank
    refine iff_of_false (fun ⟨w'', hw''⟩ => hblank ?_) (by simp)
    obtain ⟨h', -, heq⟩ := Option.map_eq_some_iff.mp hw''
    have hmsg : noSuchKey k = v := congrArg Prod.fst heq
    rw [← hmsg]
    exact List.mem_append_left _ (List.mem_append_left _ (by decide))

/-- An entry that was never stored before. -/
theorem readBack_fresh : (∃ w' w'', execute (lit "lmake k a b") 0 0 (World.fresh 8000)
      = some (lit "2", w') ∧ execute (lit "get k") 0 0 w' = some (lit "a,b", w'')) := by
  obtain ⟨w', h⟩ : ∃ w', execute (lit "lmake k a b") 0 0 (World.fresh 8000) = some (lit "2", w') :=
    ⟨_, rfl⟩
  have hstores : Stores (lit "k") (lit "a,b") (words (lit "lmake k a b")) :=
    @Stores.lmake (lit "k") (lit "a") [lit "b"]
  have hget : words (lit "get k") = [lit "get", lit "k"] := rfl
  obtain ⟨w'', h''⟩ := (readBack_iff hstores hget rfl h (by decide)).mpr
    fun n hn => absurd hn (by simp [World.fresh])
  exact ⟨w', w'', h, h''⟩

/-- **An overwritten entry stays expired.**  A key with a lifetime of five seconds is stored once more
after they are over: the reply is `OK!`, and the key is not there. -/
theorem not_readBack_expired : ¬ ∀ (rs : List Request) (replies : List Str) (w w' : World)
    (com com' k v : Str) (a : UInt8) (t : Int) (msg : Str),
    runAll rs (World.fresh 8000) = some (replies, w) → Stores k v (words com) →
    words com' = [lit "get", k] → notHere w.h k = false →
    execute com a t w = some (msg, w') → ¬ IsError msg →
    ∃ w'', execute com' a t w' = some (v, w'') := by
  intro h
  obtain ⟨w, w', hrun, hhere, hmake, hget⟩ : ∃ w w',
      runAll [⟨lit "make k v", 0, 0⟩, ⟨lit "expire k 5", 0, 0⟩] (World.fresh 8000)
          = some ([confirmMsg, confirmMsg], w) ∧
        notHere w.h (lit "k") = false ∧
        execute (lit "make k x") 0 6 w = some (confirmMsg, w') ∧
        (execute (lit "get k") 0 6 w').map Prod.fst = some (noSuchKey (lit "k")) :=
    ⟨_, _, rfl, rfl, rfl, rfl⟩
  have hstores : Stores (lit "k") (lit "x") (words (lit "make k x")) :=
    @Stores.make (lit "k") (lit "x") []
  obtain ⟨w'', hshown⟩ := h _ _ _ _ _ (lit "get k") _ _ _ _ _ hrun hstores rfl hhere hmake
    (by decide)
  rw [hshown] at hget
  have hmsg : lit "x" = noSuchKey (lit "k") := Option.some.inj hget
  exact absurd hmsg (by decide)

end Command

end MuseKv
