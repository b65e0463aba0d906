import MuseKv.Command.Typed
import MuseKv.Command.Equiv.Isolation
import MuseKv.Command.Equiv.Stored
import MuseKv.Value.Equiv.Hashset

/-!
# What the keys of one type are

Where the commands of a run on a live key are all of one type, the replies to them and the value that is
left are those of the operations on its values, whatever the run does to other keys (`runAll_typed`).  So a
key of type `Set` is a set that elements are drawn from (**`runAll_set`**), and one of type `Hashmap` is a
finite map (**`runAll_map`**).
-/

namespace MuseKv.Command

open General Kvstore

variable {S O : Type} {T : KeyType S O} {ws : List Str} {auth : UInt8} {t : Int} {n : Kv} {h : Hash}
  {k : Str} {rs : List Request} {w w' : World} {replies : List Str}

/-! ### One command -/

theorem keyEffect_of_write {word k : Str} {args : List Str} {f : KeyHandler} {msg : Str} {n' : Kv}
    (hlook : lookup dispatch word (args.length + 2) = some (.keyed f))
    (h : f ⟨k, args, auth, t⟩ (some n) = some (msg, .write n')) :
    keyEffect (word :: k :: args) auth t (some n) = some (msg, some n') := by
  rw [keyEffect, keyResult, hlook]
  change (f ⟨k, args, auth, t⟩ (some n)).bind _ = _
  rw [h]
  rfl

theorem keyEffect_of_keep {word k : Str} {args : List Str} {f : KeyHandler} {msg : Str}
    (hlook : lookup dispatch word (args.length + 2) = some (.keyed f))
    (h : f ⟨k, args, auth, t⟩ (some n) = some (msg, .keep)) :
    keyEffect (word :: k :: args) auth t (some n) = some (msg, some n) := by
  rw [keyEffect, keyResult, hlook]
  change (f ⟨k, args, auth, t⟩ (some n)).bind _ = _
  rw [h]
  rfl

/-- The commands do what the type says they do, to a live entry that allows them. -/
structure KeyType.Sound (T : KeyType S O) : Prop where
  named : ∀ {ws o}, T.op ws = some o → ws[1]? = some (keyOf ws)
  level : ∀ o n v, T.level o (n.setV v) = T.level o n
  effect : ∀ {ws o s n auth t}, T.op ws = some o → n.v = T.value s → n.isExpired t = false →
    T.level o n ≤ auth → keyEffect ws auth t (some n) =
      some ((T.step o s).1, some (n.setV (T.value (T.step o s).2)))

theorem refused_eq_notHere (hk : ws[1]? = some k) : refused h ws = notHere h k := by
  match ws with
  | [] => exact absurd hk (by simp)
  | [_] => exact absurd hk (by simp)
  | _ :: _ :: _ =>
    obtain rfl := Option.some.inj hk
    rfl

/-! ### Runs -/

/-- Commands of one type, as operations under their key. -/
theorem KeyType.Sound.fold (hT : T.Sound) {s : S} {l : List Str} (hhere : notHere h k = false)
    (hv : n.v = T.value s) (hrs : ∀ r ∈ rs, keyOf (words r.com) = k ∧ T.Allows n r) :
    (keyed h).fold rs (some n, l) =
      some (some (n.setV (T.value (T.run (rs.filterMap fun r => T.op (words r.com)) s).2)),
        l ++ (T.run (rs.filterMap fun r => T.op (words r.com)) s).1) := by
  induction rs generalizing n s l with
  | nil =>
    rw [List.filterMap_nil, KeyType.run, List.append_nil, ← hv]
    rfl
  | cons r rs ih =>
    obtain ⟨hkey, o, ho, hauth, hlive⟩ := hrs r (List.mem_cons_self ..)
    have href : refused h (words r.com) = false := by
      rw [refused_eq_notHere (hT.named ho), hkey, hhere]
    have hstep : (keyed h).step r (some n, l) =
        some (some (n.setV (T.value (T.step o s).2)), l ++ [(T.step o s).1]) := by
      rw [keyed]
      dsimp only
      rw [if_neg (by rw [href]; exact Bool.false_ne_true), hT.effect ho hv hlive hauth]
      rfl
    have hops : (r :: rs).filterMap (fun r => T.op (words r.com)) =
        o :: rs.filterMap fun r => T.op (words r.com) := List.filterMap_cons_some ho
    rw [Keyed.fold, hstep, Option.bind_some, hops]
    -- the levels and the lifetime of the entry are as before
    rw [ih (n := n.setV (T.value (T.step o s).2)) rfl fun r hr => ?_]
    · rw [KeyType.run, List.append_assoc]
      rfl
    · obtain ⟨hkey, o', ho', hauth, hlive⟩ := hrs r (List.mem_cons_of_mem _ hr)
      exact ⟨hkey, o', ho', by rwa [hT.level], hlive⟩

/-- **A key of a type is a value of the type.**  Whatever the commands on other keys do, the replies to the
commands on the key, and the value that is left, are those of the operations of its type. -/
theorem runAll_typed (hT : T.Sound) {s : S} (hord : ∀ r ∈ rs, Ordinary (words r.com))
    (hrun : runAll rs w = some (replies, w')) (hhere : notHere w.h k = false)
    (hk : w.h.findNode k = some n) (hv : n.v = T.value s) (hrs : ∀ r ∈ naming k rs, T.Allows n r) :
    answersTo k rs replies = (T.run (T.ops k rs) s).1 ∧
      w'.h.findNode k = some (n.setV (T.value (T.run (T.ops k rs) s).2)) := by
  have hkey := Keyed.run_eq_some_iff.mp (runAll_keyed (l := fun _ => []) hord hrun) k
  have hfold := hT.fold (l := []) hhere hv fun r (hr : r ∈ naming k rs) =>
    ⟨of_decide_eq_true (List.mem_filter.mp hr).2, hrs r hr⟩
  have hview : view w (fun _ => []) k = (some n, []) := by rw [view, hk]
  rw [hview] at hkey
  obtain ⟨hnode, hreplies⟩ := Prod.mk.inj (Option.some.inj (hkey.symm.trans hfold))
  dsimp only at hreplies
  rw [List.nil_append, List.nil_append] at hreplies
  exact ⟨hreplies, hnode⟩

/-! ### Sets -/

/-- What a handler of sets does to a live entry that allows it. -/
theorem onSet_of_live {c : Call} {level : Kv → UInt8} {body : Kv → Hashset → Result} {s : Hashset}
    (hv : n.v = .set s) (hlive : n.isExpired c.currTime = false) (hauth : level n ≤ c.auth) :
    onSet c level (some n) body = body n s := by
  rw [onSet, live_of_not_expired hlive, hv]
  exact permitted_of_le hauth _

/-- `spush`. -/
theorem keyEffect_spush {k : Str} {xs : List Str} {s : Hashset} (hne : xs ≠ []) (hv : n.v = .set s)
    (hlive : n.isExpired t = false) (hauth : n.authw ≤ auth) :
    keyEffect (lit "spush" :: k :: xs) auth t (some n) =
      some (confirmMsg, some (n.setV (.set (xs.foldl Hashset.push s)))) := by
  obtain ⟨x, xs, rfl⟩ := List.exists_cons_of_ne_nil hne
  exact keyEffect_of_write (f := spush) rfl
    (onSet_of_live (c := ⟨k, x :: xs, auth, t⟩) hv hlive hauth)

/-- `spop`. -/
theorem keyEffect_spop {k : Str} {s : Hashset} (hv : n.v = .set s) (hlive : n.isExpired t = false)
    (hauth : n.authw ≤ auth) : keyEffect [lit "spop", k] auth t (some n) =
      some ((setType.step .draw s).1, some (n.setV (.set (setType.step .draw s).2))) := by
  have hspop : spop ⟨k, [], auth, t⟩ (some n) =
      if s.isEmpty then reply emptyList else some (s.pop.1, .write (n.setV (.set s.pop.2))) :=
    onSet_of_live (c := ⟨k, [], auth, t⟩) hv hlive hauth
  cases hs : s.isEmpty with
  | true =>
    rw [hs, if_pos rfl] at hspop
    have hstep : setType.step .draw s = (emptyList, s) := by
      simp [setType, setResult, setRest, setReply, hs]
    rw [keyEffect_of_keep rfl hspop, hstep, ← hv]
    rfl
  | false =>
    rw [hs, if_neg Bool.false_ne_true] at hspop
    have hstep : setType.step .draw s = s.pop := by
      simp [setType, setResult, setRest, setReply, hs]
    rw [keyEffect_of_write rfl hspop, hstep]

/-- `serase`. -/
theorem keyEffect_serase {k x : Str} {s : Hashset} (hv : n.v = .set s) (hlive : n.isExpired t = false)
    (hauth : n.authw ≤ auth) : keyEffect [lit "serase", k, x] auth t (some n) =
      some ((setType.step (.remove x) s).1, some (n.setV (.set (setType.step (.remove x) s).2))) := by
  have hserase : serase ⟨k, [x], auth, t⟩ (some n) =
      if s.isEmpty then reply emptyList
      else some (if (s.del x).1 then confirmMsg else noSuchElement x,
        .write (n.setV (.set (s.del x).2))) :=
    onSet_of_live (c := ⟨k, [x], auth, t⟩) hv hlive hauth
  cases hs : s.isEmpty with
  | true =>
    rw [hs, if_pos rfl] at hserase
    have hstep : setType.step (.remove x) s = (emptyList, s) := by
      simp [setType, setResult, setRest, setReply, hs]
    rw [keyEffect_of_keep rfl hserase, hstep, ← hv]
    rfl
  | false =>
    rw [hs, if_neg Bool.false_ne_true] at hserase
    have hstep : setType.step (.remove x) s =
        (if (s.del x).1 then confirmMsg else noSuchElement x, (s.del x).2) := by
      cases hdel : (s.del x).1 <;> simp [setType, setResult, setRest, setReply, hs, hdel]
    rw [keyEffect_of_write rfl hserase, hstep]

theorem keyOf_of_setOp {o : Draws.Op Str} (ho : setOp ws = some o) : ws[1]? = some (keyOf ws) := by
  match ws with
  | [] => exact absurd ho (by simp [setOp])
  | [_] => exact absurd ho (by simp [setOp])
  | _ :: _ :: _ => rfl

theorem setType_sound : setType.Sound where
  named := keyOf_of_setOp
  level _ _ _ := rfl
  effect {ws o s n auth t} ho hv hlive hauth := by
    change setOp ws = some o at ho
    match ws with
    | [] => exact absurd ho (by simp [setOp])
    | [_] => exact absurd ho (by simp [setOp])
    | [word, k] =>
      rw [setOp] at ho
      split_ifs at ho with hword
      obtain rfl := Option.some.inj ho
      exact hword ▸ keyEffect_spop hv hlive hauth
    | [word, k, x] =>
      rw [setOp] at ho
      split_ifs at ho with hword hword'
      · obtain rfl := Option.some.inj ho
        exact hword ▸ keyEffect_spush (List.cons_ne_nil _ _) hv hlive hauth
      · obtain rfl := Option.some.inj ho
        exact hword' ▸ keyEffect_serase hv hlive hauth
    | word :: k :: x :: y :: xs =>
      rw [setOp] at ho
      · split_ifs at ho with hword
        obtain rfl := Option.some.inj ho
        exact hword ▸ keyEffect_spush (List.cons_ne_nil _ _) hv hlive hauth
      · simp
      · simp

/-- **An operation on a set** does to its elements what it does to a set. -/
theorem draws_step (o : Draws.Op Str) (s : Hashset) :
    Draws.Step s.contents (o, setResult o s) (setRest o s).contents := by
  cases o with
  | add xs =>
    have hadd : (xs.foldl Hashset.push s).contents = s.contents ∪ xs.toFinset := by
      ext x
      rw [Hashset.mem_contents, Hashset.mem_foldl_push, Finset.mem_union, List.mem_toFinset,
        Hashset.mem_contents, or_comm]
    change Draws.Step s.contents (.add xs, .done) (xs.foldl Hashset.push s).contents
    rw [hadd]
    exact .add _ _
  | draw =>
    cases hs : s.isEmpty with
    | true =>
      rw [setResult, setRest, hs, if_pos rfl, if_pos rfl, Hashset.isEmpty_iff.mp hs]
      exact .drawEmpty
    | false =>
      obtain ⟨hmem, hrest⟩ := Hashset.pop_spec hs
      have herase : s.pop.2.contents = s.contents.erase s.pop.1 := by
        ext x
        rw [Finset.mem_erase, Hashset.mem_contents, Hashset.mem_contents, and_comm]
        exact hrest x
      rw [setResult, setRest, hs, if_neg Bool.false_ne_true, if_neg Bool.false_ne_true, herase]
      exact .draw (Hashset.mem_contents.mpr hmem)
  | remove x =>
    cases hs : s.isEmpty with
    | true =>
      rw [setResult, setRest, hs, if_pos rfl, if_pos rfl, Hashset.isEmpty_iff.mp hs]
      exact .removeEmpty x
    | false =>
      obtain ⟨hfst, hsnd⟩ := s.del_spec x
      have hne : s.contents.Nonempty := by
        rw [Finset.nonempty_iff_ne_empty, ne_eq, ← Hashset.isEmpty_iff, hs]
        exact Bool.false_ne_true
      rw [setResult, setRest, hs, if_neg Bool.false_ne_true, if_neg Bool.false_ne_true, hfst, hsnd]
      by_cases hx : x ∈ s.contents
      · rw [if_pos (decide_eq_true hx)]
        exact .remove hx
      · rw [if_neg (by simpa using hx), Finset.erase_eq_of_notMem hx]
        exact .missing hne hx

/-- The operations on a set, with what they return. -/
theorem draws_run (os : List (Draws.Op Str)) (s : Hashset) :
    ∃ es, es.map Prod.fst = os ∧ (setType.run os s).1 = es.map (fun e => setReply e.1 e.2) ∧
      Draws.Run s.contents es (setType.run os s).2.contents := by
  induction os generalizing s with
  | nil => exact ⟨[], rfl, rfl, .nil _⟩
  | cons o os ih =>
    obtain ⟨es, rfl, hreplies, hrun⟩ := ih (setRest o s)
    refine ⟨(o, setResult o s) :: es, rfl, ?_, .cons (draws_step o s) hrun⟩
    rw [KeyType.run, List.map_cons, ← hreplies]
    rfl

/-- **A set key is a set.**  In a run where a key that holds a set is only added to, drawn from and erased
from, whatever the run does to the other keys, the replies are those of a finite set which chooses the
element to draw, and the set is left under the key: an element is never handed out more often than it was
put in, those that are left included. -/
theorem runAll_set {s : Hashset} (hord : ∀ r ∈ rs, Ordinary (words r.com))
    (hrun : runAll rs w = some (replies, w')) (hhere : notHere w.h k = false)
    (hk : w.h.findNode k = some n) (hv : n.v = .set s) (hrs : ∀ r ∈ naming k rs, setType.Allows n r) :
    ∃ es s', es.map Prod.fst = setType.ops k rs ∧
      answersTo k rs replies = es.map (fun e => setReply e.1 e.2) ∧
      w'.h.findNode k = some (n.setV (.set s')) ∧ Draws.Run s.contents es s'.contents ∧
      ∀ x, Draws.draws x es + (if x ∈ s'.contents then 1 else 0) ≤
        (if x ∈ s.contents then 1 else 0) + Draws.adds x es := by
  obtain ⟨hreplies, hnode⟩ := runAll_typed setType_sound hord hrun hhere hk hv hrs
  obtain ⟨es, hops, hes, hdraws⟩ := draws_run (setType.ops k rs) s
  exact ⟨es, _, hops, hreplies.trans hes, hnode, hdraws, hdraws.draws_le⟩

/-- A table with a set of one ticket under `t`. -/
def tickets : World where
  h := (Hash.new 8000).set (lit "t") (.set (Hashset.empty.push (lit "a"))) 0 0
  csv := none
  writable := true

/-- A ticket is put in, and all are drawn, with a command on another key between them. -/
def ticketRun : List Request :=
  [⟨lit "spush t b", 0, 0⟩, ⟨lit "make k v", 0, 1⟩, ⟨lit "spop t", 0, 2⟩, ⟨lit "spop t", 0, 3⟩]

theorem ticketRun_ordinary : ∀ r ∈ ticketRun, Ordinary (words r.com) := by
  have hpop : Ordinary [lit "spop", lit "t"] := ordinary_of_lookup (f := spop) (by decide) rfl
  simp only [ticketRun, List.forall_mem_cons]
  rw [show words (lit "spush t b") = [lit "spush", lit "t", lit "b"] by decide,
    show words (lit "make k v") = [lit "make", lit "k", lit "v"] by decide,
    show words (lit "spop t") = [lit "spop", lit "t"] by decide]
  exact ⟨ordinary_of_lookup (f := spush) (by decide) rfl,
    ordinary_of_lookup (f := make) (by decide) rfl, hpop, hpop, by simp⟩

/-- Each ticket is handed out once. -/
theorem runAll_set_tickets : ∃ replies w' es, runAll ticketRun tickets = some (replies, w') ∧
    answersTo (lit "t") ticketRun replies = [confirmMsg, lit "b", lit "a"] ∧
    answersTo (lit "t") ticketRun replies = es.map (fun e => setReply e.1 e.2) ∧
    ∀ x, Draws.draws x es ≤ (if x = lit "a" then 1 else 0) + Draws.adds x es := by
  have hk : tickets.h.findNode (lit "t") =
      some ⟨.set (Hashset.empty.push (lit "a")), -1, 0, false, 0, 0⟩ := by
    rw [tickets, Hash.findNode_set]
    rfl
  obtain ⟨w', hrun⟩ : ∃ w', runAll ticketRun tickets =
    some ([confirmMsg, confirmMsg, lit "b", lit "a"], w') := ⟨_, rfl⟩
  have hops : naming (lit "t") ticketRun =
      [⟨lit "spush t b", 0, 0⟩, ⟨lit "spop t", 0, 2⟩, ⟨lit "spop t", 0, 3⟩] := rfl
  have hallows : ∀ r ∈ naming (lit "t") ticketRun,
      setType.Allows ⟨.set (Hashset.empty.push (lit "a")), -1, 0, false, 0, 0⟩ r := by
    rw [hops]
    simp only [List.forall_mem_cons]
    exact ⟨⟨_, rfl, by decide, rfl⟩, ⟨_, rfl, by decide, rfl⟩, ⟨_, rfl, by decide, rfl⟩, by simp⟩
  obtain ⟨es, s', -, hreplies, -, -, hle⟩ := runAll_set ticketRun_ordinary hrun (by decide) hk rfl hallows
  refine ⟨_, w', es, hrun, rfl, hreplies, fun x => ?_⟩
  have hx := hle x
  have hmem : x ∈ (Hashset.empty.push (lit "a")).contents ↔ x = lit "a" := by
    rw [Hashset.mem_contents, Hashset.mem_push]
    exact or_iff_left (Hashset.not_mem_empty x)
  simp only [hmem] at hx
  omega

/-! ### Maps -/

/-- What a handler of maps does to a live entry that allows it. -/
theorem onHashmap_of_live {c : Call} {level : Kv → UInt8} {body : Kv → Hashmap → Result} {m : Hashmap}
    (hv : n.v = .hashmap m) (hlive : n.isExpired c.currTime = false) (hauth : level n ≤ c.auth) :
    onHashmap c level (some n) body = body n m := by
  rw [onHashmap, live_of_not_expired hlive, hv]
  exact permitted_of_le hauth _

theorem delFv_of_none {m : Hashmap} {f : Str} (h : m.findHashmapNode f = none) : m.delFv f = none := by
  rw [Hashmap.delFv]
  split
  next => rfl
  next r hr => exact absurd (h.symm.trans hr) (by simp)

/-- `hpush`. -/
theorem keyEffect_hpush {k f v : Str} {m : Hashmap} (hv : n.v = .hashmap m)
    (hlive : n.isExpired t = false) (hauth : n.authw ≤ auth) :
    keyEffect [lit "hpush", k, f, v] auth t (some n) =
      some (confirmMsg, some (n.setV (.hashmap (m.setFv f v)))) :=
  keyEffect_of_write (f := hpush) rfl (onHashmap_of_live (c := ⟨k, [f, v], auth, t⟩) hv hlive hauth)

/-- `hget`. -/
theorem keyEffect_hget {k f : Str} {m : Hashmap} (hv : n.v = .hashmap m)
    (hlive : n.isExpired t = false) (hauth : n.authr ≤ auth) :
    keyEffect [lit "hget", k, f] auth t (some n) =
      some ((mapType.step (.get f) m).1, some (n.setV (.hashmap (mapType.step (.get f) m).2))) := by
  have hhget : hget ⟨k, [f], auth, t⟩ (some n) = some ((mapType.step (.get f) m).1, .keep) := by
    refine (onHashmap_of_live (c := ⟨k, [f], auth, t⟩) hv hlive hauth).trans ?_
    change (if m.isEmpty then reply emptyHashmap else if m.getV f = lit "NULL" then
      reply (noSuchField f) else reply (m.getV f)) = _
    rw [mapType]
    dsimp only
    split_ifs <;> rfl
  rw [keyEffect_of_keep rfl hhget]
  change _ = some (_, some (n.setV (.hashmap m)))
  rw [← hv]
  rfl

/-- `herase`. -/
theorem keyEffect_herase {k f : Str} {m : Hashmap} (hv : n.v = .hashmap m)
    (hlive : n.isExpired t = false) (hauth : n.authw ≤ auth) :
    keyEffect [lit "herase", k, f] auth t (some n) =
      some ((mapType.step (.erase f) m).1, some (n.setV (.hashmap (mapType.step (.erase f) m).2))) := by
  have hherase : herase ⟨k, [f], auth, t⟩ (some n) = _ :=
    onHashmap_of_live (c := ⟨k, [f], auth, t⟩) hv hlive hauth
  have harg : Call.arg ⟨k, [f], auth, t⟩ 0 = f := rfl
  rw [harg] at hherase
  cases hm : m.isEmpty with
  | true =>
    rw [hm, if_pos rfl] at hherase
    have hstep : mapType.step (.erase f) m = (emptyHashmap, m) := by simp [mapType, hm]
    rw [keyEffect_of_keep rfl hherase, hstep, ← hv]
    rfl
  | false =>
    rw [hm, if_neg Bool.false_ne_true] at hherase
    cases hfind : m.findHashmapNode f with
    | none =>
      rw [hfind] at hherase
      have hstep : mapType.step (.erase f) m = (noSuchField f, m) := by
        simp [mapType, hm, delFv_of_none hfind]
      rw [keyEffect_of_keep rfl hherase, hstep, ← hv]
      rfl
    | some r =>
      obtain ⟨m', hdel, -⟩ := Hashmap.delFv_of_some hfind
      rw [hfind, hdel] at hherase
      have hstep : mapType.step (.erase f) m = (confirmMsg, m') := by simp [mapType, hm, hdel]
      rw [keyEffect_of_write rfl hherase, hstep]

theorem mapType_sound : mapType.Sound where
  named {ws o} ho := by
    change mapOp ws = some o at ho
    match ws with
    | [] => exact absurd ho (by simp [mapOp])
    | [_] => exact absurd ho (by simp [mapOp])
    | _ :: _ :: _ => rfl
  level o _ _ := by cases o <;> rfl
  effect {ws o m n auth t} ho hv hlive hauth := by
    change mapOp ws = some o at ho
    match ws with
    | [] => exact absurd ho (by simp [mapOp])
    | [_] => exact absurd ho (by simp [mapOp])
    | [_, _] => exact absurd ho (by simp [mapOp])
    | [word, k, f] =>
      rw [mapOp] at ho
      split_ifs at ho with hword hword'
      · obtain rfl := Option.some.inj ho
        exact hword ▸ keyEffect_hget hv hlive hauth
      · obtain rfl := Option.some.inj ho
        exact hword' ▸ keyEffect_herase hv hlive hauth
    | [word, k, f, v] =>
      rw [mapOp] at ho
      split_ifs at ho with hword
      obtain rfl := Option.some.inj ho
      exact hword ▸ keyEffect_hpush hv hlive hauth
    | _ :: _ :: _ :: _ :: _ :: _ => exact absurd ho (by simp [mapOp])

theorem isEmpty_iff_lookup (m : Hashmap) : m.isEmpty = true ↔ m.lookup = fun _ => none := by
  rw [Hashmap.isEmpty_iff]
  constructor
  · intro hm
    funext f
    rw [Hashmap.lookup, hm]
    rfl
  · intro hm
    cases hnodes : m.nodes with
    | nil => rfl
    | cons p l =>
      have hmem : p ∈ m.nodes := hnodes ▸ List.mem_cons_self ..
      have hp := Hashmap.mem_nodes_iff.mp hmem
      rw [hm] at hp
      exact absurd hp (by simp)

theorem delFv_eq_none_iff {m : Hashmap} {f : Str} : m.delFv f = none ↔ m.lookup f = none := by
  have hlook : m.lookup f = none ↔ m.findHashmapNode f = none := by
    rw [Hashmap.lookup, Hashmap.find_eq, Option.map_eq_none_iff, Option.map_eq_none_iff]
  rw [hlook]
  cases hfind : m.findHashmapNode f with
  | none => exact iff_of_true (delFv_of_none hfind) rfl
  | some r =>
    obtain ⟨m', hdel, -⟩ := Hashmap.delFv_of_some hfind
    rw [hdel]
    exact iff_of_false (by simp) (by simp)

/-- **An operation on a map** does to its fields what it does to a finite map. -/
theorem mapType_step (o : MapKeyOp) (m : Hashmap) :
    (mapType.step o m).1 = (mapStep o m.lookup).1 ∧
      (mapType.step o m).2.lookup = (mapStep o m.lookup).2 := by
  cases o with
  | push f v =>
    refine ⟨rfl, funext fun g => ?_⟩
    change (m.setFv f v).lookup g = Function.update m.lookup f (some v) g
    rw [Hashmap.lookup_setFv, Function.update_apply]
  | get f =>
    refine ⟨?_, rfl⟩
    change (if m.isEmpty then emptyHashmap
      else if m.getV f = lit "NULL" then noSuchField f else m.getV f) = _
    rw [mapStep, getV_eq]
    by_cases hm : m.isEmpty = true
    · rw [if_pos hm, if_pos ((isEmpty_iff_lookup m).mp hm)]
    · rw [if_neg hm, if_neg fun hnone => hm ((isEmpty_iff_lookup m).mpr hnone)]
  | erase f =>
    -- what is left where there is no such field
    have hsame : m.lookup f = none → m.lookup = Function.update m.lookup f none := fun hf => by
      rw [← hf, Function.update_eq_self]
    rw [mapStep, mapType]
    dsimp only
    by_cases hm : m.isEmpty = true
    · have hnone := (isEmpty_iff_lookup m).mp hm
      rw [if_pos hm, if_pos hnone]
      exact ⟨rfl, hsame (by rw [hnone])⟩
    · rw [if_neg hm, if_neg fun hnone => hm ((isEmpty_iff_lookup m).mpr hnone)]
      cases hdel : m.delFv f with
      | none =>
        have hf := delFv_eq_none_iff.mp hdel
        rw [if_pos hf]
        exact ⟨rfl, hsame hf⟩
      | some m' =>
        have hf : m.lookup f ≠ none := fun hf => by
          rw [delFv_eq_none_iff.mpr hf] at hdel
          exact absurd hdel (by simp)
        rw [if_neg hf]
        refine ⟨rfl, funext fun g => ?_⟩
        rw [Hashmap.lookup_delFv hdel, Function.update_apply]

theorem mapType_run (os : List MapKeyOp) (m : Hashmap) :
    (mapType.run os m).1 = (mapRun os m.lookup).1 ∧
      (mapType.run os m).2.lookup = (mapRun os m.lookup).2 := by
  induction os generalizing m with
  | nil => exact ⟨rfl, rfl⟩
  | cons o os ih =>
    obtain ⟨hreply, hrest⟩ := mapType_step o m
    obtain ⟨hreplies, hfinal⟩ := ih (mapType.step o m).2
    rw [KeyType.run, mapRun, ← hreply, ← hrest, ← hreplies]
    exact ⟨rfl, hfinal⟩

/-- **A hashmap key is a finite map.**  In a run where a key that holds a map is only pushed to and erased
from with its write level, and read by field with its read level, whatever the run does to the other keys,
the replies and the fields that are left are those of a finite map, in which a field with the text `NULL`
reads like an absent one. -/
theorem runAll_map {m : Hashmap} (hord : ∀ r ∈ rs, Ordinary (words r.com))
    (hrun : runAll rs w = some (replies, w')) (hhere : notHere w.h k = false)
    (hk : w.h.findNode k = some n) (hv : n.v = .hashmap m)
    (hrs : ∀ r ∈ naming k rs, mapType.Allows n r) :
    ∃ m', answersTo k rs replies = (mapRun (mapType.ops k rs) m.lookup).1 ∧
      w'.h.findNode k = some (n.setV (.hashmap m')) ∧
      m'.lookup = (mapRun (mapType.ops k rs) m.lookup).2 := by
  obtain ⟨hreplies, hnode⟩ := runAll_typed mapType_sound hord hrun hhere hk hv hrs
  obtain ⟨hsame, hrest⟩ := mapType_run (mapType.ops k rs) m
  exact ⟨_, hreplies.trans hsame, hnode, hrest⟩

/-- A table with an empty map under `m`. -/
def fields : World where
  h := (Hash.new 8000).set (lit "m") (.hashmap .empty) 0 0
  csv := none
  writable := true

/-- A field is stored twice and erased, with a command on another key between. -/
def fieldRun : List Request :=
  [⟨lit "hpush m f x", 0, 0⟩, ⟨lit "make k v", 0, 1⟩, ⟨lit "hpush m f y", 0, 2⟩, ⟨lit "hget m f", 0, 3⟩]

theorem fieldRun_ordinary : ∀ r ∈ fieldRun, Ordinary (words r.com) := by
  simp only [fieldRun, List.forall_mem_cons]
  rw [show words (lit "hpush m f x") = [lit "hpush", lit "m", lit "f", lit "x"] by decide,
    show words (lit "make k v") = [lit "make", lit "k", lit "v"] by decide,
    show words (lit "hpush m f y") = [lit "hpush", lit "m", lit "f", lit "y"] by decide,
    show words (lit "hget m f") = [lit "hget", lit "m", lit "f"] by decide]
  exact ⟨ordinary_of_lookup (f := hpush) (by decide) rfl,
    ordinary_of_lookup (f := make) (by decide) rfl, ordinary_of_lookup (f := hpush) (by decide) rfl,
    ordinary_of_lookup (f := hget) (by decide) rfl, by simp⟩

/-- The last value of the field is read and left. -/
theorem runAll_map_fields : ∃ replies w' n m', runAll fieldRun fields = some (replies, w') ∧
    w'.h.findNode (lit "m") = some n ∧ n.v = .hashmap m' ∧ m'.lookup (lit "f") = some (lit "y") := by
  have hk : fields.h.findNode (lit "m") = some ⟨.hashmap .empty, -1, 0, false, 0, 0⟩ := by
    rw [fields, Hash.findNode_set]
    rfl
  obtain ⟨w', hrun⟩ : ∃ w', runAll fieldRun fields =
    some ([confirmMsg, confirmMsg, confirmMsg, lit "y"], w') := ⟨_, rfl⟩
  have hops : naming (lit "m") fieldRun =
      [⟨lit "hpush m f x", 0, 0⟩, ⟨lit "hpush m f y", 0, 2⟩, ⟨lit "hget m f", 0, 3⟩] := rfl
  have hallows : ∀ r ∈ naming (lit "m") fieldRun,
      mapType.Allows ⟨.hashmap .empty, -1, 0, false, 0, 0⟩ r := by
    rw [hops]
    simp only [List.forall_mem_cons]
    exact ⟨⟨_, rfl, by decide, rfl⟩, ⟨_, rfl, by decide, rfl⟩, ⟨_, rfl, by decide, rfl⟩, by simp⟩
  obtain ⟨m', -, hnode, hfields⟩ := runAll_map fieldRun_ordinary hrun (by decide) hk rfl hallows
  refine ⟨_, w', _, m', hrun, hnode, rfl, ?_⟩
  rw [hfields, show mapType.ops (lit "m") fieldRun =
    [.push (lit "f") (lit "x"), .push (lit "f") (lit "y"), .get (lit "f")] from rfl, mapRun, mapRun,
    mapRun, mapRun, mapStep, mapStep, mapStep]
  dsimp only
  rw [Function.update_self]

end MuseKv.Command
