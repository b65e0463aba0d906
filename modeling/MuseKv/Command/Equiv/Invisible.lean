import MuseKv.Command.Equiv.LazyExpiry
import MuseKv.Command.Equiv.RoundTrip
import MuseKv.Hash.Equiv.Load
import MuseKv.Hash.Equiv.Snapshot

/-!
# Commands that hide the expired entries

`keys` and `save` list the expired entries with the others, and `read` overwrites them where they
stay expired.  With the handlers of a key this gives, for every command, exactly when the expired
entries do not show (`invisible_iff`).
-/

namespace MuseKv

open General Kvstore

/-- Removing elements shows in the joined text, as each of them adds to it. -/
theorem flatMap_filter_eq_iff {α β : Type} {f : α → List β} (hf : ∀ x, f x ≠ []) {p : α → Bool}
    {l : List α} : (l.filter p).flatMap f = l.flatMap f ↔ ∀ x ∈ l, p x = true := by
  constructor
  · intro heq
    by_contra hsome
    push Not at hsome
    obtain ⟨x, hx, hp⟩ := hsome
    obtain ⟨pre, post, rfl⟩ := List.append_of_mem hx
    have hle : ∀ m : List α, ((m.filter p).flatMap f).length ≤ (m.flatMap f).length := fun m =>
      (List.Sublist.flatMap List.filter_sublist f).length_le
    have hpos : 0 < (f x).length := List.length_pos_iff.mpr (hf x)
    have hlength := congrArg List.length heq
    rw [List.filter_append, List.filter_cons_of_neg hp, List.flatMap_append, List.flatMap_append,
      List.flatMap_cons, List.length_append, List.length_append, List.length_append] at hlength
    have hpre := hle pre
    have hpost := hle post
    omega
  · intro h
    rw [List.filter_eq_self.mpr h]

theorem merge_append_singleton {c : UInt8} {l : List Str} (h : l ≠ []) :
    merge c l ++ [c] = l.flatMap fun x => x ++ [c] := by
  induction l with
  | nil => exact absurd rfl h
  | cons x l ih =>
    rw [List.flatMap_cons]
    by_cases hl : l = []
    · rw [hl, merge_singleton, List.flatMap_nil, List.append_nil]
    · rw [merge_cons c x hl, ← ih hl, List.append_assoc, List.append_assoc, List.cons_append,
        List.singleton_append]

/-- A listing hides what is removed only if nothing is, or if it was one empty string. -/
theorem merge_filter_eq_iff {c : UInt8} {p : Str → Bool} {l : List Str} :
    merge c (l.filter p) = merge c l ↔ (∀ x ∈ l, p x = true) ∨ l = [[]] := by
  by_cases hl : l = []
  · simp [hl]
  by_cases hfilter : l.filter p = []
  · have hnil : merge c (l.filter p) = [] := merge_eq_nil.mpr (Or.inl hfilter)
    rw [hnil, eq_comm, merge_eq_nil, or_iff_right hl]
    refine (or_iff_right fun hall => hl ?_).symm
    rw [← List.filter_eq_self.mpr hall, hfilter]
  · have hone : l = [[]] → ∀ x ∈ l, p x = true := by
      rintro rfl
      have hp : p [] = true := by
        by_contra hp
        exact hfilter (List.filter_cons_of_neg hp)
      simpa using hp
    rw [or_iff_left_of_imp hone, ← flatMap_filter_eq_iff (f := fun x => x ++ [c]) (by simp),
      ← merge_append_singleton hl, ← merge_append_singleton hfilter, List.append_cancel_right_eq]

namespace Command

variable {w : World} {t : Int} {auth : UInt8}

/-! ### `keys` -/

theorem keys_purge (h : Hash) (t : Int) : (h.purge t).keys = h.keys.filter fun k =>
    (h.findNode k).any fun n => !n.isExpired t := by
  rw [Hash.keys, Hash.entries_purge, Hash.keys, List.filter_map]
  refine congrArg (List.map Prod.fst) (List.filter_congr fun e he => ?_)
  have hfind : h.findNode e.1 = some e.2 := Hash.findNode_eq_some_iff.mpr he
  rw [Function.comp_apply, hfind, Option.any_some]

theorem visible_purge (h : Hash) : visible (h.purge t) auth = (visible h auth).filter fun k =>
    (h.findNode k).any fun n => !n.isExpired t := by
  rw [visible, keys_purge, visible, List.filter_filter, List.filter_filter]
  apply List.filter_congr
  intro k hk
  rw [Hash.findNode_purge]
  cases h.findNode k with
  | none => rfl
  | some n =>
    rw [Option.filter_some, Option.any_some, Option.any_some]
    cases n.isExpired t with
    | false => simp
    | true => simp

theorem mem_visible {h : Hash} {k : Str} :
    k ∈ visible h auth ↔ ∃ n, h.findNode k = some n ∧ n.authr ≤ auth := by
  rw [visible, List.mem_filter, Option.any_eq_true]
  constructor
  · rintro ⟨-, n, hn, hr⟩
    exact ⟨n, hn, by simpa using hr⟩
  · rintro ⟨n, hn, hr⟩
    refine ⟨List.mem_map.mpr ⟨(k, n), Hash.findNode_eq_some_iff.mp hn, rfl⟩, n, hn, ?_⟩
    simpa using hr

/-- **`keys` hides the expired entries** if and only if it shows none of them. -/
theorem keys_invisible_iff {word : Str} {args : List Str} : keys w.h auth = keys (w.purge t).h auth ↔
    Handler.keys.Unaffected word args auth t w := by
  have hkeys : ∀ h : Hash, keys h auth = merge (byte ',') (visible h auth) := fun _ => rfl
  have hpurge : (w.purge t).h = w.h.purge t := rfl
  rw [Handler.Unaffected, hkeys, hkeys, hpurge, visible_purge, eq_comm, merge_filter_eq_iff]
  refine or_congr_left ?_
  constructor
  · intro h k n hk hexp
    by_contra hr
    have hlive := h k (mem_visible.mpr ⟨n, hk, UInt8.not_lt.mp hr⟩)
    rw [hk, Option.any_some, hexp] at hlive
    exact Bool.false_ne_true hlive
  · intro h k hk
    obtain ⟨n, hn, hr⟩ := mem_visible.mp hk
    rw [hn, Option.any_some, Bool.not_eq_true']
    by_contra hexp
    rw [Bool.not_eq_false] at hexp
    exact absurd (h k n hn hexp) (UInt8.not_lt.mpr hr)

/-! ### `save` -/

/-- **The file hides the expired entries** if and only if there are none, or if a live entry makes
`save` fault. -/
theorem saveText_purge_eq_iff {h : Hash} : (h.purge t).saveText = h.saveText ↔
    (∀ k n, h.findNode k = some n → n.isExpired t = false) ∨
      ∃ k n, h.findNode k = some n ∧ n.isExpired t = false ∧ ¬ Hash.Printable (k, n) := by
  rw [Hash.saveText, Hash.saveText, Hash.entries_purge]
  have hmem : ∀ e ∈ h.entries, h.findNode e.1 = some e.2 := fun e he =>
    Hash.findNode_eq_some_iff.mpr he
  constructor
  · intro heq
    rw [or_iff_not_imp_right]
    intro hset k n hk
    -- the live entries are written, and what is written for the others is not empty
    have hlive : ∀ e ∈ h.entries.filter fun e => !e.2.isExpired t, Hash.Printable e := by
      intro e he
      obtain ⟨he, hexp⟩ := List.mem_filter.mp he
      rw [Bool.not_eq_true'] at hexp
      by_contra hnot
      exact hset ⟨e.1, e.2, hmem e he, hexp, hnot⟩
    have htext := Hash.saveEntries_eq_some.mpr ⟨hlive, rfl⟩
    have hall := (flatMap_filter_eq_iff fun e => by simp).mp
      (Hash.saveEntries_eq_some.mp (heq ▸ htext)).2
    simpa using hall (k, n) (Hash.findNode_eq_some_iff.mp hk)
  · rintro (hall | ⟨k, n, hk, hexp, hv⟩)
    · rw [List.filter_eq_self.mpr fun e he => by rw [hall e.1 e.2 (hmem e he), Bool.not_false]]
    · have hentry := Hash.findNode_eq_some_iff.mp hk
      have hnone : ∀ es, (k, n) ∈ es → Hash.saveEntries es = none := by
        intro es hes
        cases htext : Hash.saveEntries es with
        | none => rfl
        | some text =>
          exact absurd ((Hash.saveEntries_eq_some.mp htext).1 _ hes) hv
      rw [hnone _ hentry, hnone _ (List.mem_filter.mpr ⟨hentry, by rw [hexp]; rfl⟩)]

/-! ### `read` -/

/-- A record leaves an entry expired, and makes none. -/
theorem isExpired_enter (h : Hash) (r : Hash.Record) (k : Str) :
    ((h.enter r).findNode k).any (fun n => n.isExpired t)
      = (h.findNode k).any fun n => n.isExpired t := by
  rw [Hash.enter, Hash.findNode_set]
  split_ifs with hk
  · rw [Option.any_some, Hash.isExpired_setEntry, hk]
  · rfl

theorem isExpired_foldl_enter (rs : List Hash.Record) (h : Hash) (k : Str) :
    ((rs.foldl Hash.enter h).findNode k).any (fun n => n.isExpired t)
      = (h.findNode k).any fun n => n.isExpired t := by
  induction rs generalizing h with
  | nil => rfl
  | cons r rs ih => rw [List.foldl_cons, ih, isExpired_enter]

/-- The keys of the records are in the table. -/
theorem isSome_foldl_enter {rs : List Hash.Record} {k : Str} (h : Hash)
    (hk : (h.findNode k).isSome = true ∨ ∃ r ∈ rs, r.1 = k) :
    ((rs.foldl Hash.enter h).findNode k).isSome = true := by
  induction rs generalizing h with
  | nil => simpa using hk
  | cons r rs ih =>
    rw [List.foldl_cons]
    refine ih _ ?_
    by_cases hr : k = r.1
    · exact Or.inl (by rw [Hash.enter, Hash.findNode_set, if_pos hr]; rfl)
    · rw [Hash.enter, Hash.findNode_set, if_neg hr]
      refine hk.imp_right ?_
      rintro ⟨r', hmem, rfl⟩
      rcases List.mem_cons.mp hmem with rfl | hmem
      · exact absurd rfl hr
      · exact ⟨r', hmem, rfl⟩

/-- No key of the records is that of an expired entry. -/
def Fresh (t : Int) (rs : List Hash.Record) (h : Hash) : Prop :=
  ∀ r ∈ rs, (h.findNode r.1).any (fun n => n.isExpired t) = false

/-- Such records do the same to tables that differ in expired entries. -/
theorem purge_foldl_enter {rs : List Hash.Record} {g h : Hash} (hg : Fresh t rs g)
    (hh : Fresh t rs h) (hpurge : g.purge t = h.purge t) :
    (rs.foldl Hash.enter g).purge t = (rs.foldl Hash.enter h).purge t := by
  induction rs generalizing g h with
  | nil => exact hpurge
  | cons r rs ih =>
    have henter : ∀ f : Hash, Fresh t (r :: rs) f →
        Fresh t rs (f.enter r) ∧ (f.enter r).purge t = ((f.purge t).enter r).purge t := by
      intro f hf
      obtain ⟨hr, hrs⟩ := List.forall_mem_cons.mp hf
      refine ⟨fun r' hr' => ?_, Hash.purge_set (fun n hn => ?_) _ _ _⟩
      · rw [isExpired_enter]
        exact hrs r' hr'
      · rwa [hn, Option.any_some] at hr
    rw [List.foldl_cons, List.foldl_cons]
    apply ih (henter g hg).1 (henter h hh).1
    rw [(henter g hg).2, (henter h hh).2, hpurge]

/-- A record over an expired entry is lost behind the purge, and is not where there was no entry. -/
theorem purge_foldl_enter_iff {rs : List Hash.Record} {h : Hash} :
    (rs.foldl Hash.enter h).purge t = (rs.foldl Hash.enter (h.purge t)).purge t ↔ Fresh t rs h := by
  have hnone : ∀ k, ((h.purge t).findNode k).any (fun n => n.isExpired t) = false := by
    intro k
    rw [Hash.findNode_purge, Option.any_filter]
    cases h.findNode k with
    | none => rfl
    | some n => simp
  constructor
  · intro heq r hr
    by_contra hexp
    rw [Bool.not_eq_false] at hexp
    have hfind := congrArg (fun h : Hash => h.findNode r.1) heq
    simp only [Hash.findNode_purge] at hfind
    obtain ⟨n, hn⟩ := Option.isSome_iff_exists.mp
      (isSome_foldl_enter (h.purge t) (Or.inr ⟨r, hr, rfl⟩))
    have hlive := isExpired_foldl_enter (t := t) rs (h.purge t) r.1
    obtain ⟨m, hm⟩ := Option.isSome_iff_exists.mp (isSome_foldl_enter h (Or.inr ⟨r, hr, rfl⟩))
    have hdead := isExpired_foldl_enter (t := t) rs h r.1
    rw [hn, Option.any_some, hnone] at hlive
    rw [hm, Option.any_some, hexp] at hdead
    rw [hn, hm, Option.filter_some, Option.filter_some, hlive, hdead] at hfind
    exact absurd hfind (by simp)
  · intro h
    exact purge_foldl_enter h (fun r _ => hnone r.1) (Hash.purge_purge _ t).symm

/-- **`read` hides the expired entries** if and only if it enters no record over one of them. -/
theorem read_invisible_iff {word : Str} {args : List Str} :
    Option.Rel (SameLive t) (Handler.read.run args auth t w) (Handler.read.run args auth t (w.purge t))
      ↔ Handler.read.Unaffected word args auth t w := by
  have hrun : ∀ v : World, Handler.read.run args auth t v = (v.h.read v.csv (args.headD [])).map
      fun r => (if r.1 then confirmMsg else lit "ERROR : FAIL TO READ FILE", { v with h := r.2 }) :=
    fun v => Option.map_map ..
  have hreads : ∀ b rs, Hash.Reads w.csv (args.headD []) b rs →
      (Option.Rel (SameLive t) (Handler.read.run args auth t w)
        (Handler.read.run args auth t (w.purge t)) ↔ Fresh t rs w.h) := by
    intro b rs hrs
    have hleft := (Hash.read_eq_some_iff (h := w.h)).mpr ⟨rs, hrs, rfl⟩
    have hright := (Hash.read_eq_some_iff (h := (w.purge t).h)).mpr ⟨rs, hrs, rfl⟩
    have hcsv : (w.purge t).csv = w.csv := rfl
    rw [hrun, hrun, hcsv, hleft, hright, ← purge_foldl_enter_iff]
    constructor
    · intro h
      cases h with
      | some h => exact h.2.1
    · intro h
      exact .some ⟨rfl, h, rfl⟩
  -- in `Unaffected` the records are named one by one
  have hfresh : ∀ rs, Fresh t rs w.h ↔
      ∀ r ∈ rs, ∀ n, w.h.findNode r.1 = some n → n.isExpired t = false := by
    intro rs
    apply forall₂_congr
    intro r _
    cases w.h.findNode r.1 with
    | none => simp
    | some n => simp
  rw [Handler.Unaffected]
  constructor
  · intro h b rs hrs
    exact (hfresh rs).mp ((hreads b rs hrs).mp h)
  · intro h
    cases hr : w.h.read w.csv (args.headD []) with
    | some x =>
      obtain ⟨rs, hrs, -⟩ := Hash.read_eq_some_iff.mp hr
      exact (hreads _ rs hrs).mpr ((hfresh rs).mpr (h _ rs hrs))
    | none =>
      -- a fault in the file does not depend on the table
      have hright : (w.purge t).h.read w.csv (args.headD []) = none := by
        cases hr' : (w.purge t).h.read w.csv (args.headD []) with
        | none => rfl
        | some x =>
          obtain ⟨rs, hrs, -⟩ := Hash.read_eq_some_iff.mp hr'
          have hleft := (Hash.read_eq_some_iff (h := w.h)).mpr ⟨rs, hrs, rfl⟩
          exact absurd (hr.symm.trans hleft) (by simp)
      have hcsv : (w.purge t).csv = w.csv := rfl
      rw [hrun, hrun, hcsv, hr, hright]
      exact .none

/-! ### Every command -/

/-- Results that are the same just when they come from the same. -/
theorem rel_map_iff {α β γ : Type} {R : β → γ → Prop} {x y : Option α} {f : α → β} {g : α → γ}
    (h : ∀ a b, R (f a) (g b) ↔ a = b) : Option.Rel R (x.map f) (y.map g) ↔ x = y := by
  cases x with
  | none =>
    cases y with
    | none => exact iff_of_true .none rfl
    | some b => exact iff_of_false (fun hr => nomatch hr) (by simp)
  | some a =>
    cases y with
    | none => exact iff_of_false (fun hr => nomatch hr) (by simp)
    | some b =>
      rw [Option.some.injEq, ← h a b]
      constructor
      · intro hr
        cases hr with
        | some hr => exact hr
      · intro hr
        exact .some hr

/-- What the handler of a command hides. -/
theorem handler_invisible_iff {word : Str} {args : List Str} {handler : Handler}
    (hlook : lookup dispatch word (args.length + 1) = some handler) (hwords : ∀ x ∈ args, x ≠ []) :
    Option.Rel (SameLive t) (handler.run args auth t w) (handler.run args auth t (w.purge t)) ↔
      handler.Unaffected word args auth t w := by
  cases handler with
  | keyed f => exact keyed_invisible_iff hlook hwords
  | keys =>
    refine Iff.trans ?_ keys_invisible_iff
    change Option.Rel (SameLive t) (some (Command.keys w.h auth, w))
      (some (Command.keys (w.purge t).h auth, w.purge t)) ↔ _
    -- `keys` changes nothing, so only the reply counts
    generalize Command.keys w.h auth = x, Command.keys (w.purge t).h auth = y
    constructor
    · intro h
      cases h with
      | some h => exact h.1
    · intro h
      exact .some ⟨h, (Hash.purge_purge _ t).symm, rfl⟩
  | save =>
    have hrun : ∀ v : World, v.writable = w.writable → Handler.save.run args auth t v =
        if w.writable then v.h.saveText.map fun text => (confirmMsg, { v with csv := some text })
        else some (lit "ERROR : NO FILE", v) := by
      intro v hv
      rw [Handler.run, World.save, hv]
      split_ifs
      · exact Option.map_map ..
      · rfl
    -- `save` shows the table in its file, unless it cannot write it
    have hunaffected : Handler.save.Unaffected word args auth t w ↔ w.writable = false ∨
        (w.h.purge t).saveText = w.h.saveText := by
      rw [saveText_purge_eq_iff, Handler.Unaffected]
    rw [hunaffected, hrun w rfl, hrun (w.purge t) rfl]
    have hpurge : (w.purge t).h = w.h.purge t := rfl
    split_ifs with hwritable
    · rw [or_iff_right (by simp [hwritable]), hpurge]
      refine (rel_map_iff fun text text' => ?_).trans eq_comm
      exact ⟨fun h => Option.some.inj h.2.2,
        fun h => ⟨rfl, (Hash.purge_purge _ t).symm, congrArg some h⟩⟩
    · exact iff_of_true (.some ⟨rfl, (Hash.purge_purge _ t).symm, rfl⟩)
        (Or.inl (by simpa using hwritable))
  | read => exact read_invisible_iff

/-- **Lazy expiry is invisible** in a command if and only if no expired entry shows in what the
command does. -/
theorem invisible_iff (com : Str) (auth : UInt8) (t : Int) (w : World) :
    Invisible com auth t w ↔ Unaffected com auth t w := by
  have hsame : ∀ x : Str, Option.Rel (SameLive t) (some (x, w)) (some (x, w.purge t)) :=
    fun x => .some ⟨rfl, (Hash.purge_purge _ t).symm, rfl⟩
  have hne : ∀ x ∈ words com, x ≠ [] := fun x hx => ne_nil_of_mem_words hx
  unfold Invisible Unaffected execute
  generalize words com = ws at hne
  match ws with
  | [] => exact iff_of_true (hsame _) trivial
  | word :: args =>
    have hhere : notHere (w.purge t).h = notHere w.h := rfl
    dsimp only
    rw [executeWords, executeWords, hhere]
    -- a command that is not answered from the table is the same on both sides
    by_cases hctl : word ∈ controlWords
    · rw [if_pos hctl, if_pos hctl]
      exact iff_of_true (hsame _) (Or.inl hctl)
    rw [if_neg hctl, if_neg hctl, or_iff_right hctl]
    by_cases hkey : args.head?.any (notHere w.h) = true
    · rw [if_pos hkey, if_pos hkey]
      exact iff_of_true (hsame _) (Or.inl hkey)
    rw [if_neg hkey, if_neg hkey, or_iff_right hkey]
    cases hlook : lookup dispatch word (args.length + 1) with
    | none => exact iff_of_true (hsame _) fun handler h => absurd h (by simp)
    | some handler =>
      have hargs : ∀ x ∈ args, x ≠ [] := fun x hx => hne x (List.mem_cons_of_mem _ hx)
      refine (handler_invisible_iff hlook hargs).trans ?_
      constructor
      · intro h handler' heq
        obtain rfl := Option.some.inj heq
        exact h
      · intro h
        exact h handler rfl

/-- **`del` shows an expired entry.**  A key with a lifetime of five seconds is deleted after they are
over: the reply is `OK!`, and without the entry it is that there is no such key. -/
theorem not_invisible_del : ¬ ∀ (rs : List Request) (replies : List Str) (w : World) (com : Str)
    (auth : UInt8) (t : Int), runAll rs (World.fresh 8000) = some (replies, w) →
    (words com).tail.head?.any (notHere w.h) = false → Invisible com auth t w := by
  intro h
  obtain ⟨w, hrun, hhere, hdel, hpurged⟩ : ∃ w,
      runAll [⟨lit "make k v", 0, 0⟩, ⟨lit "expire k 5", 0, 0⟩] (World.fresh 8000)
          = some ([confirmMsg, confirmMsg], w) ∧
        (words (lit "del k")).tail.head?.any (notHere w.h) = false ∧
        (execute (lit "del k") 0 6 w).map Prod.fst = some confirmMsg ∧
        (execute (lit "del k") 0 6 (w.purge 6)).map Prod.fst = some (noSuchKey (lit "k")) :=
    ⟨_, rfl, rfl, rfl, rfl⟩
  have hinvisible : Invisible (lit "del k") 0 6 w := h _ _ _ _ _ _ hrun hhere
  unfold Invisible at hinvisible
  cases hx : execute (lit "del k") 0 6 w with
  | none =>
    rw [hx] at hdel
    exact nomatch hdel
  | some x =>
    cases hy : execute (lit "del k") 0 6 (w.purge 6) with
    | none =>
      rw [hy] at hpurged
      exact nomatch hpurged
    | some y =>
      rw [hx, hy] at hinvisible
      rw [hx] at hdel
      rw [hy] at hpurged
      cases hinvisible with
      | some hsame =>
        have hmsg : confirmMsg = noSuchKey (lit "k") := (Option.some.inj hdel).symm.trans
          (hsame.1.trans (Option.some.inj hpurged))
        exact absurd hmsg (by decide)

end Command

end MuseKv
