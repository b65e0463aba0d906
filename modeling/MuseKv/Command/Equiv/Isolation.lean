import MuseKv.Command.Equiv.Locality
import MuseKv.General.Projection
import MuseKv.Server.Equiv.Route

/-!
# Keys do not interfere

A run of ordinary commands is a run of keyed operations on the entries and the replies so far
(`runAll_keyed`, `runAll_isSome`).

* **`runAll_naming`**: the commands that name a key, executed alone, get the same replies and leave the
  same entry.
* **`runAll_reorder`**: runs that differ in the order of commands on different keys give every key the
  same replies and the same entry.
-/

namespace MuseKv.Command

open General Kvstore

/-- Ordinary commands as operations on the entry of their key, and on the replies to the commands that
name it. -/
def keyed (h : Hash) : Keyed Str (Option Kv × List Str) Request where
  key r := keyOf (words r.com)
  step r v :=
    if refused h (words r.com) then
      some (v.1, v.2 ++ [lit "hashval " ++ toStr (Hash.hashFunc (keyOf (words r.com)))])
    else (keyEffect (words r.com) r.auth r.currTime v.1).map fun x => (x.2, v.2 ++ [x.1])

/-- The entries of a table, each with the replies so far. -/
def view (w : World) (l : Str → List Str) (k : Str) : Option Kv × List Str :=
  (w.h.findNode k, l k)

variable {rs rs' : List Request} {r : Request} {w w' : World} {msg : Str} {replies : List Str}
  {l : Str → List Str}

theorem keyed_congr {k : Str} (h : OnlyKey k w w') : keyed w'.h = keyed w.h := by
  have hhere : notHere w'.h = notHere w.h := funext h.notHere
  unfold keyed refused
  rw [hhere]

theorem keyOf_of_getElem? {ws : List Str} {k : Str} (hk : ws[1]? = some k) : keyOf ws = k := by
  rw [keyOf, List.getD_eq_getElem?_getD, hk, Option.getD_some]

theorem keyed_apply_of_refused (href : refused w.h (words r.com) = true) :
    (keyed w.h).apply r (view w l) = some (Function.update (view w l) (keyOf (words r.com))
      (w.h.findNode (keyOf (words r.com)), l (keyOf (words r.com)) ++
        [lit "hashval " ++ toStr (Hash.hashFunc (keyOf (words r.com)))])) := by
  unfold Keyed.apply keyed
  dsimp only
  rw [if_pos href, Option.map_some]
  rfl

theorem keyed_apply_of_here (href : refused w.h (words r.com) = false) :
    (keyed w.h).apply r (view w l) =
      (keyEffect (words r.com) r.auth r.currTime (w.h.findNode (keyOf (words r.com)))).map fun x =>
        Function.update (view w l) (keyOf (words r.com))
          (x.2, l (keyOf (words r.com)) ++ [x.1]) := by
  unfold Keyed.apply keyed
  dsimp only
  rw [if_neg (by rw [href]; exact Bool.false_ne_true), Option.map_map]
  rfl

theorem view_update {k : Str} (h : OnlyKey k w w') (msg : Str) :
    Function.update (view w l) k (w'.h.findNode k, l k ++ [msg])
      = view w' (Function.update l k (l k ++ [msg])) := by
  funext k'
  unfold view
  by_cases hk : k' = k
  · rw [hk, Function.update_self, Function.update_self]
  · rw [Function.update_of_ne hk, Function.update_of_ne hk, h.others k' hk]

/-- **One command is one operation.** -/
theorem execute_keyed (hord : Ordinary (words r.com))
    (h : execute r.com r.auth r.currTime w = some (msg, w')) :
    (keyed w.h).apply r (view w l) = some (view w' (Function.update l (keyOf (words r.com))
        (l (keyOf (words r.com)) ++ [msg]))) ∧ OnlyKey (keyOf (words r.com)) w w' := by
  cases href : refused w.h (words r.com) with
  | true =>
    have hctl : ∀ word ∈ (words r.com).head?, word ∉ controlWords := by
      intro word hword
      obtain ⟨args, hws⟩ := List.head?_eq_some_iff.mp hword
      exact (hord word args hws).1
    obtain ⟨k, hk, rfl, rfl⟩ := executeWords_refused hctl href h
    refine ⟨?_, .refl _ _⟩
    rw [keyed_apply_of_refused href, keyOf_of_getElem? hk, view_update (.refl k w')]
  | false =>
    obtain ⟨heffect, honly⟩ := executeWords_ordinary hord href h
    refine ⟨?_, honly⟩
    rw [keyed_apply_of_here href, heffect, Option.map_some, view_update honly]

/-- A command faults only where its operation does. -/
theorem execute_isSome (hord : Ordinary (words r.com)) {σ : Str → Option Kv × List Str}
    (h : (keyed w.h).apply r (view w l) = some σ) :
    ∃ msg w', execute r.com r.auth r.currTime w = some (msg, w') := by
  cases href : refused w.h (words r.com) with
  | true =>
    obtain ⟨k, hk, -⟩ := refused_iff.mp href
    match hws : words r.com with
    | [] => simp [hws] at hk
    | [word] => simp [hws] at hk
    | word :: k' :: args =>
      rw [hws] at href
      have href' : (k' :: args).head?.any (notHere w.h) = true := href
      rw [execute, hws, executeWords, if_neg (hord word _ hws).1, if_pos href']
      exact ⟨_, _, rfl⟩
  | false =>
    rw [keyed_apply_of_here href] at h
    obtain ⟨x, hx, -⟩ := Option.map_eq_some_iff.mp h
    obtain ⟨w', hw'⟩ := executeWords_isSome hord href hx
    exact ⟨x.1, w', hw'⟩

/-! ### Runs -/

/-- **A run of commands is a run of operations.** -/
theorem runAll_keyed (hord : ∀ r ∈ rs, Ordinary (words r.com))
    (h : runAll rs w = some (replies, w')) :
    (keyed w.h).run rs (view w l) = some (view w' fun k => l k ++ answersTo k rs replies) := by
  induction rs generalizing w l replies with
  | nil =>
    obtain ⟨rfl, rfl⟩ := Prod.mk.inj (Option.some.inj h)
    simp only [answersTo, List.append_nil]
    rfl
  | cons r rs ih =>
    obtain ⟨x, hx, h⟩ := Option.bind_eq_some_iff.mp h
    obtain ⟨y, hy, heq⟩ := Option.map_eq_some_iff.mp h
    obtain ⟨rfl, rfl⟩ := Prod.mk.inj heq
    obtain ⟨happly, honly⟩ := execute_keyed (l := l) (hord r (List.mem_cons_self ..)) hx
    have hrun := ih (l := Function.update l (keyOf (words r.com))
      (l (keyOf (words r.com)) ++ [x.1])) (fun r hr => hord r (List.mem_cons_of_mem _ hr)) hy
    rw [keyed_congr honly] at hrun
    rw [Keyed.run, happly, Option.bind_some, hrun]
    refine congrArg (fun l => some (view y.2 l)) (funext fun k => ?_)
    rw [answersTo]
    split_ifs with hk
    · rw [hk, Function.update_self, List.append_assoc]
      rfl
    · rw [Function.update_of_ne (Ne.symm hk)]

/-- **A run faults only where an operation does.** -/
theorem runAll_isSome (hord : ∀ r ∈ rs, Ordinary (words r.com)) {σ : Str → Option Kv × List Str}
    (h : (keyed w.h).run rs (view w l) = some σ) : ∃ replies w', runAll rs w = some (replies, w') := by
  induction rs generalizing w l with
  | nil => exact ⟨[], w, rfl⟩
  | cons r rs ih =>
    obtain ⟨σ₁, hσ₁, h⟩ := Option.bind_eq_some_iff.mp h
    obtain ⟨msg, w₁, hexec⟩ := execute_isSome (hord r (List.mem_cons_self ..)) hσ₁
    obtain ⟨happly, honly⟩ := execute_keyed (l := l) (hord r (List.mem_cons_self ..)) hexec
    obtain rfl := Option.some.inj (hσ₁.symm.trans happly)
    rw [← keyed_congr honly] at h
    obtain ⟨replies, w', hrun⟩ := ih (fun r hr => hord r (List.mem_cons_of_mem _ hr)) h
    exact ⟨msg :: replies, w', by rw [runAll, hexec, Option.bind_some, hrun, Option.map_some]⟩

theorem runAll_length (h : runAll rs w = some (replies, w')) : replies.length = rs.length := by
  induction rs generalizing w replies with
  | nil =>
    obtain ⟨rfl, -⟩ := Prod.mk.inj (Option.some.inj h)
    rfl
  | cons r rs ih =>
    obtain ⟨x, -, h⟩ := Option.bind_eq_some_iff.mp h
    obtain ⟨⟨msgs, v⟩, hy, heq⟩ := Option.map_eq_some_iff.mp h
    obtain ⟨rfl, rfl⟩ := Prod.mk.inj heq
    rw [List.length_cons, List.length_cons, ih hy]

/-- Where every command names the key, every reply is to the key. -/
theorem answersTo_of_forall {k : Str} (h : ∀ r ∈ rs, keyOf (words r.com) = k)
    (hlen : replies.length = rs.length) : answersTo k rs replies = replies := by
  induction rs generalizing replies with
  | nil =>
    obtain rfl := List.eq_nil_of_length_eq_zero hlen
    rfl
  | cons r rs ih =>
    match replies with
    | [] => simp at hlen
    | msg :: replies =>
      rw [answersTo, if_pos (h r (List.mem_cons_self ..)),
        ih (fun r hr => h r (List.mem_cons_of_mem _ hr)) (Nat.succ.inj hlen)]

/-- **Keys do not interfere.**  The commands that name a key, executed alone, get the replies that they
get in the run, and leave the entry that the run leaves. -/
theorem runAll_naming (hord : ∀ r ∈ rs, Ordinary (words r.com))
    (h : runAll rs w = some (replies, w')) (k : Str) :
    ∃ wk, runAll (naming k rs) w = some (answersTo k rs replies, wk) ∧
      wk.h.findNode k = w'.h.findNode k ∧
      ∀ k', k' ≠ k → wk.h.findNode k' = w.h.findNode k' := by
  have hrun := Keyed.run_filter (runAll_keyed (l := fun _ => []) hord h) k
  have hord' : ∀ r ∈ naming k rs, Ordinary (words r.com) :=
    fun r hr => hord r (List.mem_of_mem_filter hr)
  have hall : ∀ r ∈ naming k rs, keyOf (words r.com) = k :=
    fun r hr => of_decide_eq_true (List.mem_filter.mp hr).2
  obtain ⟨replies', wk, hwk⟩ := runAll_isSome hord' hrun
  -- the run of these commands alone, as operations, against the whole run at their key
  have hview := Option.some.inj ((runAll_keyed (l := fun _ => []) hord' hwk).symm.trans hrun)
  have hkey := congrFun hview k
  rw [Function.update_self] at hkey
  obtain ⟨hnode, hreplies⟩ := Prod.mk.inj hkey
  dsimp only at hreplies
  rw [List.nil_append, List.nil_append, 
    answersTo_of_forall hall (runAll_length hwk)] at hreplies
  refine ⟨wk, by rw [hwk, hreplies], hnode, fun k' hk' => ?_⟩
  have hother := congrFun hview k'
  rw [Function.update_of_ne hk'] at hother
  exact (Prod.mk.inj hother).1

/-- A text is made under each of two keys, and the first is read. -/
def twoKeys : List Request := [⟨lit "make a x", 0, 0⟩, ⟨lit "make b y", 0, 1⟩, ⟨lit "get a", 0, 2⟩]

theorem ordinary_of_lookup {word : Str} {args : List Str} {f : KeyHandler} (hctl : word ∉ controlWords)
    (hlook : lookup dispatch word (args.length + 1) = some (.keyed f)) : Ordinary (word :: args) := by
  intro word' args' hws
  obtain ⟨rfl, rfl⟩ := List.cons.inj hws
  exact ⟨hctl, fun handler hhandler => ⟨f, Option.some.inj (hhandler.symm.trans hlook)⟩⟩

theorem twoKeys_ordinary : ∀ r ∈ twoKeys, Ordinary (words r.com) := by
  simp only [twoKeys, List.forall_mem_cons]
  refine ⟨?_, ?_, ?_, by simp⟩
  · rw [show words (lit "make a x") = [lit "make", lit "a", lit "x"] by decide]
    exact ordinary_of_lookup (by decide) rfl
  · rw [show words (lit "make b y") = [lit "make", lit "b", lit "y"] by decide]
    exact ordinary_of_lookup (by decide) rfl
  · rw [show words (lit "get a") = [lit "get", lit "a"] by decide]
    exact ordinary_of_lookup (by decide) rfl

theorem twoKeys_replies : ∃ w, runAll twoKeys (World.fresh 8000) =
    some ([confirmMsg, confirmMsg, lit "x"], w) := ⟨_, rfl⟩

/-- The run of the first key alone. -/
theorem runAll_naming_twoKeys : ∃ w, runAll [⟨lit "make a x", 0, 0⟩, ⟨lit "get a", 0, 2⟩]
    (World.fresh 8000) = some ([confirmMsg, lit "x"], w) := by
  obtain ⟨w, hw⟩ := twoKeys_replies
  obtain ⟨wk, hwk, -⟩ := runAll_naming twoKeys_ordinary hw (lit "a")
  exact ⟨wk, hwk⟩

/-- **The order of commands on different keys makes no difference.**  A run with the same commands on
each key, in the same order, gives every key the same replies and leaves every key the same entry. -/
theorem runAll_reorder (hord : ∀ r ∈ rs, Ordinary (words r.com))
    (h : runAll rs w = some (replies, w')) (hsame : ∀ k, naming k rs = naming k rs') :
    ∃ replies' v, runAll rs' w = some (replies', v) ∧
      ∀ k, answersTo k rs' replies' = answersTo k rs replies ∧
        v.h.findNode k = w'.h.findNode k := by
  have hrun := runAll_keyed (l := fun _ => []) hord h
  rw [Keyed.run_congr (K := keyed w.h) hsame] at hrun
  have hord' : ∀ r ∈ rs', Ordinary (words r.com) := by
    intro r hr
    have hmem : r ∈ naming (keyOf (words r.com)) rs' := List.mem_filter.mpr ⟨hr, decide_eq_true rfl⟩
    rw [← hsame] at hmem
    exact hord r (List.mem_of_mem_filter hmem)
  obtain ⟨replies', v, hv⟩ := runAll_isSome hord' hrun
  have hview := Option.some.inj ((runAll_keyed (l := fun _ => []) hord' hv).symm.trans hrun)
  refine ⟨replies', v, hv, fun k => ?_⟩
  obtain ⟨hnode, hreplies⟩ := Prod.mk.inj (congrFun hview k)
  exact ⟨by simpa using hreplies, hnode⟩

/-- The two keys are made in the other order. -/
theorem runAll_reorder_twoKeys : ∃ replies w,
    runAll [⟨lit "make b y", 0, 1⟩, ⟨lit "make a x", 0, 0⟩, ⟨lit "get a", 0, 2⟩] (World.fresh 8000)
      = some (replies, w) ∧
    answersTo (lit "a")
      [⟨lit "make b y", 0, 1⟩, ⟨lit "make a x", 0, 0⟩, ⟨lit "get a", 0, 2⟩] replies
      = [confirmMsg, lit "x"] := by
  obtain ⟨w, hw⟩ := twoKeys_replies
  have hsame : ∀ k, naming k twoKeys =
      naming k [⟨lit "make b y", 0, 1⟩, ⟨lit "make a x", 0, 0⟩, ⟨lit "get a", 0, 2⟩] := by
    intro k
    have ha : keyOf (words (lit "make a x")) = lit "a" := by decide
    have hb : keyOf (words (lit "make b y")) = lit "b" := by decide
    unfold naming twoKeys
    by_cases hk : lit "a" = k
    · have hne : ¬ lit "b" = k := fun hk' => absurd (hk.trans hk'.symm) (by decide)
      simp only [List.filter_cons, ha, hb, hk, hne, decide_true, decide_false, if_true, if_false,
        Bool.false_eq_true]
    · simp only [List.filter_cons, ha, hb, hk, decide_false, Bool.false_eq_true, if_false]
  obtain ⟨replies, v, hv, hkeys⟩ := runAll_reorder twoKeys_ordinary hw hsame
  exact ⟨replies, v, hv, (hkeys (lit "a")).1⟩

end MuseKv.Command
