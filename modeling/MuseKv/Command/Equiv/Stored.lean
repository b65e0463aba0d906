import MuseKv.Command.Stored
import MuseKv.Command.Equiv.Answers
import MuseKv.Command.Equiv.Execute
import MuseKv.Hash.Equiv.Load

/-!
# `hget` and what was stored

`Storeless` holds of every handler but those of `hmake` and `hpush`: it puts nothing into a map.  With what
these two put there (`hmake_records`, `hpush_records`) and what `read` enters, the maps of a store that is
reached are backed by all that was stored (`Reached.backed`).  `hget` replies with the value of a field
unless it is the text that stands for an absent one (`hget_iff`, `not_hget_null`).
-/

namespace MuseKv

open General Kvstore Command

namespace Command

/-! ### What handlers put into maps -/

variable {P : Str → KeyAction → Prop} {c : Call} {node : Option Kv}

/-- After the action, a field has a value that is the last of some pairs, or the one that it had. -/
def Records (node : Option Kv) (pairs : List (Str × Str)) (act : KeyAction) : Prop :=
  ∀ f v, fieldAt (act.run node) f = some v →
    lastValue pairs f = some v ∨ (lastValue pairs f = none ∧ fieldAt node f = some v)

theorem records_keep : Records node [] .keep := fun _ _ h => Or.inr ⟨rfl, h⟩

theorem records_del : Records node [] .del := fun _ _ h => absurd h (by simp [KeyAction.run, fieldAt])

theorem fieldAt_setEntry (v : Value) (r w : UInt8) (f : Str) :
    fieldAt (some (Hash.setEntry v r w node)) f = v.field f := by
  cases node with
  | none => rfl
  | some n => rfl

/-- A value of another type has no field. -/
theorem records_set {v : Value} {r w : UInt8} (hv : ∀ f, v.field f = none) :
    Records node [] (.set v r w) := by
  intro f x hx
  rw [KeyAction.run, fieldAt_setEntry, hv] at hx
  exact absurd hx (by simp)

theorem records_write {n n' : Kv} (hn : node = some n)
    (h : ∀ f v, n'.v.field f = some v → n.v.field f = some v) : Records node [] (.write n') := by
  rintro f x hx
  rw [hn] at hx ⊢
  exact Or.inr ⟨rfl, h f x hx⟩

theorem records_other {n : Kv} {v : Value} (hn : node = some n) (hv : ∀ f, v.field f = none) :
    Records node [] (.write (n.setV v)) :=
  records_write hn fun f x hx => absurd hx (by rw [Kv.setV, hv]; simp)

/-- Nothing is put into a map. -/
def Unstored (node : Option Kv) (_ : Str) (act : KeyAction) : Prop := Records node [] act

theorem unstored_keep (msg : Str) : Unstored node msg .keep := records_keep

theorem unstored_del (msg : Str) : Unstored node msg .del := records_del

/-- A handler that puts nothing into a map. -/
def Storeless (f : KeyHandler) : Prop := ∀ c node, Answers (Unstored node) (f c node)

theorem get_storeless : Storeless get := fun _ _ =>
  .ofLive unstored_keep unstored_del fun _ _ => .permitted (unstored_keep _) fun _ =>
    .map fun _ _ => unstored_keep _

theorem make_storeless : Storeless make := by
  rintro ⟨k, args, a, t⟩ node
  have hset : ∀ {data msg : Str} {r w : UInt8}, Unstored node msg (.set (.string data) r w) :=
    records_set fun _ => rfl
  refine .overwritable (unstored_keep _) ?_
  match args with
  | [] => exact .fault
  | [data] => exact .act hset
  | [data, arg3] =>
    exact .withInt (unstored_keep _) fun _ _ => .ite (fun _ => .act (unstored_keep _)) fun _ =>
      .withinAuth (unstored_keep _) fun _ => .act hset
  | [data, arg3, arg4] =>
    dsimp only
    split
    next =>
      exact .ite (fun _ => .act (unstored_keep _)) fun _ => .ite (fun _ => .act (unstored_keep _)) fun _ =>
        .withinAuth (unstored_keep _) fun _ => .withinAuth (unstored_keep _) fun _ =>
          .ite (fun _ => .act (unstored_keep _)) fun _ => .act hset
    next => exact .fault
  | _ :: _ :: _ :: _ :: _ => exact .fault

theorem del_storeless : Storeless del := fun _ _ =>
  .ofPresent unstored_keep fun _ _ => .permitted (unstored_keep _) fun _ => .act (unstored_del _)

theorem setLevel_storeless {mutator : Kv → UInt8 → Kv} (hv : ∀ n x, (mutator n x).v = n.v) :
    Storeless (setLevel mutator) := fun _ _ =>
  .ofPresent unstored_keep fun n hn => .withInt (unstored_keep _) fun x _ =>
    .ite (fun _ => .act (unstored_keep _)) fun _ => .withinAuth (unstored_keep _) fun _ =>
      .permitted (unstored_keep _) fun _ => .act (records_write hn fun f v h => by rwa [hv] at h)

theorem expire_storeless : Storeless expire := fun _ _ =>
  .withInt (unstored_keep _) fun _ _ => .ofLive unstored_keep unstored_del fun _ hn =>
    .permitted (unstored_keep _) fun _ => .act (records_write hn fun _ _ h => h)

theorem getTtl_v (n : Kv) (t : Int) : (n.getTtl t).2.v = n.v := by
  rw [Kv.getTtl]
  split_ifs
  · rfl
  · rfl
  · rfl

theorem ttl_storeless : Storeless getTtl := fun _ _ =>
  .ofLive unstored_keep unstored_del fun _ hn => .permitted (unstored_keep _) fun _ =>
    .act (records_write hn fun f v h => by rwa [getTtl_v] at h)

theorem lmake_storeless : Storeless lmake := by
  intro c node
  refine .overwritable (unstored_keep _) (.map fun v hv => ?_)
  obtain ⟨l, -, rfl⟩ := Option.map_eq_some_iff.mp hv
  exact records_set fun _ => rfl

theorem lpush_storeless : Storeless lpush := fun _ _ =>
  .ofList unstored_keep unstored_del fun _ _ hn => .act (records_other hn fun _ => rfl)

theorem rpush_storeless : Storeless rpush := fun _ _ =>
  .ofList unstored_keep unstored_del fun _ _ hn => .act (records_other hn fun _ => rfl)

theorem popList_storeless (pop : List Str → Str × List Str) : Storeless (popList pop) := fun _ _ =>
  .ofList unstored_keep unstored_del fun _ _ hn => .ite (fun _ => .act (unstored_keep _)) fun _ =>
    .act (records_other hn fun _ => rfl)

theorem lget_storeless : Storeless lget := fun _ _ =>
  .ofList unstored_keep unstored_del fun _ _ _ => .ite (fun _ => .act (unstored_keep _)) fun _ =>
    .withInt (unstored_keep _) fun _ _ => .map fun _ _ => unstored_keep _

theorem lset_storeless : Storeless lset := fun _ _ =>
  .ofList unstored_keep unstored_del fun _ _ hn => .ite (fun _ => .act (unstored_keep _)) fun _ =>
    .withInt (unstored_keep _) fun _ _ => .map fun _ _ => records_other hn fun _ => rfl

theorem lerase_storeless : Storeless lerase := fun _ _ =>
  .ofList unstored_keep unstored_del fun _ _ hn => .ite (fun _ => .act (unstored_keep _)) fun _ =>
    .withInt (unstored_keep _) fun _ _ => .act (records_other hn fun _ => rfl)

theorem smake_storeless : Storeless smake := fun _ _ =>
  .overwritable (unstored_keep _) (.map fun _ _ => records_set fun _ => rfl)

theorem spush_storeless : Storeless spush := fun _ _ =>
  .ofSet unstored_keep unstored_del fun _ _ hn => .act (records_other hn fun _ => rfl)

theorem spop_storeless : Storeless spop := fun _ _ =>
  .ofSet unstored_keep unstored_del fun _ _ hn => .ite (fun _ => .act (unstored_keep _)) fun _ =>
    .act (records_other hn fun _ => rfl)

theorem serase_storeless : Storeless serase := fun _ _ =>
  .ofSet unstored_keep unstored_del fun _ _ hn => .ite (fun _ => .act (unstored_keep _)) fun _ =>
    .act (records_other hn fun _ => rfl)

theorem sort_storeless : Storeless sort := by
  refine fun _ _ => .ofLive unstored_keep unstored_del fun _ _ => ?_
  split
  next => exact .permitted (unstored_keep _) fun _ => .map fun _ _ => unstored_keep _
  next => exact .permitted (unstored_keep _) fun _ => .map fun _ _ => unstored_keep _
  next => exact .act (unstored_keep _)

theorem hget_storeless : Storeless hget := fun _ _ =>
  .ofHashmap unstored_keep unstored_del fun _ _ _ _ => .ite (fun _ => .act (unstored_keep _)) fun _ =>
    .ite (fun _ => .act (unstored_keep _)) fun _ => .act (unstored_keep _)

theorem listing_storeless (text : Hashmap → Str) : Storeless (listing text) := fun _ _ =>
  .ofHashmap unstored_keep unstored_del fun _ _ _ _ => .ite (fun _ => .act (unstored_keep _)) fun _ =>
    .act (unstored_keep _)

theorem herase_storeless : Storeless herase := by
  refine fun _ _ => .ofHashmap unstored_keep unstored_del fun n m hn hm =>
    .ite (fun _ => .act (unstored_keep _)) fun _ => ?_
  split
  next => exact .act (unstored_keep _)
  next =>
    refine .map fun m' hm' => records_write hn fun f v hv => ?_
    rw [Kv.setV, Value.field, Hashmap.lookup_delFv hm'] at hv
    rw [hm, Value.field]
    split_ifs at hv with hf
    exact hv

/-! ### What `hmake` and `hpush` put into maps -/

/-- Entering pairs gives every field the last value that it has among them. -/
theorem lookup_setPairs (l : List Str) (m : Hashmap) (f : Str) :
    (Value.setPairs l m).lookup f = (lastValue (pairsOf l) f).or (m.lookup f) := by
  induction l, m using Value.setPairs.induct with
  | case1 f' v' rest m ih =>
    rw [Value.setPairs, ih, pairsOf, lastValue_cons, Hashmap.lookup_setFv, Option.or_assoc]
    congr 1
    by_cases hf : f' = f
    · rw [if_pos hf, if_pos hf.symm, Option.some_or]
    · rw [if_neg hf, if_neg fun h => hf h.symm, Option.none_or]
  | case2 l m hl =>
    rw [Value.setPairs.eq_2 _ _ hl, pairsOf.eq_2 _ hl, lastValue_nil, Option.none_or]

/-- The arguments that are joined are cut into their pieces. -/
theorem pieces_of_splitData {args data : List Str} (hne : args ≠ [])
    (h : Value.splitData (merge (byte ',') args) = some data) : data = pieces args := by
  obtain ⟨hmerge, rfl⟩ := splitData_eq_some.mp h
  rw [split_of_ne_nil hmerge, splitOn_merge _ hne, pieces]

/-- A command that does not answer with `OK!` stores nothing. -/
theorem refuses_unstored {word msg : Str} {args : List Str} {act : KeyAction} (hmsg : msg ≠ confirmMsg)
    (h : Records node [] act) : Records node (storedPairs word args msg) act := by
  rwa [storedPairs, if_pos hmsg]

theorem noSuchKey_ne (k : Str) : noSuchKey k ≠ confirmMsg :=
  fun h => absurd (List.cons.inj h).1 (by decide)

theorem hmake_records (c : Call) (node : Option Kv) (hne : c.args ≠ []) :
    Answers (fun msg act => Records node (storedPairs (lit "hmake") c.args msg) act)
      (hmake c node) := by
  refine .ite (fun _ => .act (refuses_unstored (by decide) records_keep)) fun _ =>
    .overwritable (refuses_unstored (by decide) records_keep) (.map fun v hv => ?_)
  obtain ⟨data, hdata, rfl⟩ := Option.map_eq_some_iff.mp hv
  have hjoin : c.joined = merge (byte ',') c.args := by
    obtain ⟨x, xs, hargs⟩ := List.exists_cons_of_ne_nil hne
    rw [Call.joined, Call.arg, hargs]
    exact joinArgs_eq x xs
  rw [hjoin] at hdata
  intro f x hx
  rw [KeyAction.run, fieldAt_setEntry, Value.field, lookup_setPairs, Hashmap.lookup_empty,
    Option.or_none, pieces_of_splitData hne hdata] at hx
  exact Or.inl hx

theorem hpush_records {k f v : Str} {a : UInt8} {t : Int} (node : Option Kv) :
    Answers (fun msg act => Records node (storedPairs (lit "hpush") [f, v] msg) act)
      (hpush ⟨k, [f, v], a, t⟩ node) := by
  rw [hpush, onHashmap]
  cases node with
  | none => exact .act (refuses_unstored (noSuchKey_ne k) records_keep)
  | some n =>
    refine .ite (fun _ => .act (refuses_unstored (noSuchKey_ne k) records_del)) fun _ => ?_
    split
    next m hm =>
      refine .permitted (refuses_unstored (by decide) records_keep) fun _ => .act fun f' x hx => ?_
      have hfield : (m.setFv f v).lookup f' = some x := hx
      have hlast : lastValue (storedPairs (lit "hpush") [f, v] confirmMsg) f' =
          if f = f' then some v else none := lastValue_cons (f, v) [] f'
      rw [Hashmap.lookup_setFv] at hfield
      rw [hlast]
      by_cases hf : f' = f
      · rw [if_pos hf] at hfield
        exact Or.inl (by rw [if_pos hf.symm, hfield])
      · rw [if_neg hf] at hfield
        refine Or.inr ⟨if_neg fun h => hf h.symm, ?_⟩
        rw [fieldAt, Option.bind_some, hm, Value.field, hfield]
    next => exact .act (refuses_unstored (by decide) records_keep)

/-- A row of the dispatch, by what its handler puts into maps. -/
inductive Storing : Str → Arity → KeyHandler → Prop
  | hmake : Storing (lit "hmake") (.atLeast 4) hmake
  | hpush : Storing (lit "hpush") (.exactly 4) hpush
  | other {word : Str} {arity : Arity} {f : KeyHandler}
      (hword : word ≠ lit "hmake" ∧ word ≠ lit "hpush") (h : Storeless f) : Storing word arity f

theorem storing_of_lookup {word : Str} {n : ℕ} {f : KeyHandler}
    (hlook : lookup dispatch word n = some (.keyed f)) :
    ∃ arity, Storing word arity f ∧ arity.holds n = true := by
  have hall : ∀ row ∈ dispatch, ∀ f, row.2.2 = .keyed f → Storing row.1 row.2.1 f := by
    simp only [dispatch, List.forall_mem_cons, Handler.keyed.injEq, forall_eq', reduceCtorEq,
      IsEmpty.forall_iff, implies_true, true_and, List.not_mem_nil, and_true]
    exact ⟨.other (by decide) get_storeless, .other (by decide) make_storeless,
      .other (by decide) make_storeless, .other (by decide) make_storeless, .other (by decide) del_storeless,
      .other (by decide) lmake_storeless, .other (by decide) lpush_storeless,
      .other (by decide) rpush_storeless, .other (by decide) (popList_storeless _),
      .other (by decide) (popList_storeless _), .other (by decide) lget_storeless,
      .other (by decide) lset_storeless, .other (by decide) lerase_storeless,
      .other (by decide) smake_storeless, .other (by decide) spush_storeless,
      .other (by decide) spop_storeless, .other (by decide) serase_storeless,
      .other (by decide) sort_storeless, .hmake, .hpush, .other (by decide) hget_storeless,
      .other (by decide) (listing_storeless _), .other (by decide) (listing_storeless _),
      .other (by decide) herase_storeless, .other (by decide) (setLevel_storeless fun _ _ => rfl),
      .other (by decide) (setLevel_storeless fun _ _ => rfl), .other (by decide) expire_storeless,
      .other (by decide) ttl_storeless⟩
  obtain ⟨arity, hmem, harity⟩ := lookup_eq_some hlook
  exact ⟨arity, hall _ hmem f rfl, harity⟩

/-- **What a handler puts into maps** is what is stored by its command. -/
theorem records_of_lookup {word k : Str} {args : List Str} {f : KeyHandler} {a : UInt8} {t : Int}
    (node : Option Kv) (hlook : lookup dispatch word (args.length + 2) = some (.keyed f)) :
    Answers (fun msg act => Records node (storedPairs word args msg) act)
      (f ⟨k, args, a, t⟩ node) := by
  obtain ⟨arity, hstoring, harity⟩ := storing_of_lookup hlook
  cases hstoring with
  | hmake =>
    refine hmake_records _ _ ?_
    rintro rfl
    exact absurd harity (by decide)
  | hpush =>
    obtain ⟨x, y, rfl⟩ : ∃ x y, args = [x, y] :=
      List.length_eq_two.mp (by simpa [Arity.holds] using harity)
    exact hpush_records node
  | other hword hstoreless =>
    intro msg act h
    have hnone : storedPairs word args msg = [] := by
      rw [storedPairs, if_neg hword.1, if_neg hword.2, ite_self]
    rw [hnone]
    exact hstoreless _ _ msg act h

/-! ### Runs -/

/-- The values of the fields of the maps in a table. -/
def fieldOf (h : Hash) (p : Str × Str) : Option Str := fieldAt (h.findNode p.1) p.2

theorem lastValue_underKey (k : Str) (pairs : List (Str × Str)) (p : Str × Str) :
    lastValue (underKey k pairs) p = if k = p.1 then lastValue pairs p.2 else none :=
  lastValue_map_prefix k p.1 pairs p.2

/-- An action under a key, and what it stores there. -/
theorem backed_apply {log : StoreLog} {h h' : Hash} {k : Str} {act : KeyAction}
    {pairs : List (Str × Str)} (hlog : Backed log (fieldOf h)) (hact : h.apply k act = some h')
    (hrec : Records (h.findNode k) pairs act) : Backed (log ++ underKey k pairs) (fieldOf h') := by
  refine hlog.append fun p v hv => ?_
  rw [fieldOf, Hash.findNode_apply hact] at hv
  rw [lastValue_underKey]
  by_cases hk : p.1 = k
  · rw [if_pos hk] at hv
    rw [if_pos hk.symm, fieldOf, hk]
    exact hrec p.2 v hv
  · rw [if_neg hk] at hv
    rw [if_neg fun h => hk h.symm]
    exact Or.inr ⟨rfl, hv⟩

/-- A value of type `Hashmap` holds the last of its pairs. -/
theorem lastValue_pairs {v : Value} {f x : Str} (h : v.field f = some x) :
    lastValue v.pairs f = some x := by
  cases v with
  | hashmap m => rwa [Value.pairs, lastValue, List.reverse_reverse]
  | string | list | set | unset => exact absurd h (by simp [Value.field])

/-- The records of a snapshot, entered one after the other. -/
theorem backed_enter {log : StoreLog} {h : Hash} (rs : List Hash.Record)
    (hlog : Backed log (fieldOf h)) :
    Backed (log ++ storedByRecords rs) (fieldOf (rs.foldl Hash.enter h)) := by
  induction rs generalizing log h with
  | nil => rwa [storedByRecords, List.flatMap_nil, List.append_nil]
  | cons r rs ih =>
    rw [storedByRecords, List.flatMap_cons, ← List.append_assoc]
    refine ih (hlog.append fun p v hv => ?_)
    rw [fieldOf, Hash.enter, Hash.findNode_set] at hv
    rw [lastValue_underKey]
    by_cases hk : p.1 = r.1
    · rw [if_pos hk, fieldAt_setEntry] at hv
      rw [if_pos hk.symm]
      exact Or.inl (lastValue_pairs hv)
    · rw [if_neg hk] at hv
      rw [if_neg fun h => hk h.symm]
      exact Or.inr ⟨rfl, hv⟩

/-- A reply that is not `OK!` stores nothing. -/
theorem storedBy_of_ne {ws : List Str} {msg : Str} (hmsg : msg ≠ confirmMsg) : storedBy ws msg = [] := by
  match ws with
  | [] => rfl
  | [_] => rfl
  | _ :: _ :: _ => rw [storedBy, storedPairs, if_pos hmsg, underKey, List.map_nil]

/-- Neither does a command other than `hmake` and `hpush`. -/
theorem storedBy_of_word {word : Str} {args : List Str} {msg : Str}
    (hword : word ≠ lit "hmake" ∧ word ≠ lit "hpush") : storedBy (word :: args) msg = [] := by
  match args with
  | [] => rfl
  | _ :: _ =>
    rw [storedBy, storedPairs, if_neg hword.1, if_neg hword.2, ite_self, underKey, List.map_nil]

/-- A command that is no step under its key stores nothing and leaves the table, unless it reads a
snapshot. -/
theorem storedBy_cases {ws : List Str} {a : UInt8} {t : Int} {w w' : World} {msg : Str}
    (hread : ∀ pw, ws = [lit "read", pw] → notHere w.h pw = true)
    (h : executeWords ws a t w = some (msg, w')) :
    (storedBy ws msg = [] ∧ w'.h = w.h) ∨ KeyStep ws a t w msg w' := by
  match ws with
  | [] =>
    obtain ⟨-, rfl⟩ := Prod.mk.inj (Option.some.inj h)
    exact Or.inl ⟨rfl, rfl⟩
  | word :: args =>
    rw [executeWords] at h
    split_ifs at h with hctl hhash
    · obtain ⟨-, rfl⟩ := Prod.mk.inj (Option.some.inj h)
      have hall : ∀ word ∈ controlWords, word ≠ lit "hmake" ∧ word ≠ lit "hpush" := by decide
      exact Or.inl ⟨storedBy_of_word (hall word hctl), rfl⟩
    · obtain ⟨rfl, rfl⟩ := Prod.mk.inj (Option.some.inj h)
      exact Or.inl ⟨storedBy_of_ne fun h => absurd (List.cons.inj h).1 (by decide), rfl⟩
    · split at h
      next =>
        obtain ⟨rfl, rfl⟩ := Prod.mk.inj (Option.some.inj h)
        exact Or.inl ⟨storedBy_of_ne (by decide), rfl⟩
      next handler hlook =>
        cases handler with
        | keyed f =>
          obtain ⟨k, args, rfl⟩ := List.exists_cons_of_ne_nil (args_ne_nil_of_keyed hlook)
          obtain ⟨r, hr, h⟩ := Option.bind_eq_some_iff.mp h
          obtain ⟨h', hh', heq⟩ := Option.map_eq_some_iff.mp h
          obtain ⟨rfl, rfl⟩ := Prod.mk.inj heq
          exact Or.inr ⟨word, k, args, f, r.2, h', rfl, by simpa using hhash, hlook, hr,
            handler_sound hlook _ _ r.1 r.2 hr, hh', rfl⟩
        | keys =>
          obtain ⟨-, rfl⟩ := Prod.mk.inj (Option.some.inj h)
          refine Or.inl ⟨storedBy_of_word ?_, rfl⟩
          rcases eq_keys_of_lookup hlook with rfl | rfl
          · decide
          · decide
        | save =>
          obtain ⟨r, hr, heq⟩ := Option.map_eq_some_iff.mp h
          obtain ⟨-, rfl⟩ := Prod.mk.inj heq
          -- `save` only writes the file
          refine Or.inl ⟨?_, save_h (b := r.1) hr⟩
          rcases eq_save_of_lookup hlook with hws | hws
          · rw [hws]
            rfl
          · rw [hws]
            rfl
        | read =>
          -- the test of the key refuses the command that is excepted
          obtain ⟨pw, hws⟩ := eq_read_of_lookup hlook
          obtain ⟨-, rfl⟩ := List.cons.inj hws
          exact absurd (hread pw hws) (by simpa using hhash)

/-- The records that a snapshot enters, when it is read. -/
theorem h_of_read {com pw msg : Str} {a : UInt8} {t : Int} {w w' : World} {b : Bool}
    {rs : List Hash.Record} (hread : words com = [lit "read", pw]) (hhere : notHere w.h pw = false)
    (hrs : w.h.read w.csv pw = some (b, rs.foldl Hash.enter w.h))
    (h : execute com a t w = some (msg, w')) : w'.h = rs.foldl Hash.enter w.h := by
  rw [execute, hread, executeWords, if_neg (by decide), if_neg (by simp [hhere])] at h
  have hrun : Handler.read.run [pw] a t w = some (msg, w') := h
  rw [Handler.run, List.headD_cons, World.read, hrs, Option.map_some, Option.map_some] at hrun
  obtain ⟨-, rfl⟩ := Prod.mk.inj (Option.some.inj hrun)
  rfl

/-- **The maps of a store hold what was stored last.** -/
theorem Reached.backed {w : World} {log : StoreLog} (h : Reached w log) : Backed log (fieldOf w.h) := by
  induction h with
  | fresh port => exact fun p v hv => absurd hv (by simp [fieldOf, fieldAt, World.fresh])
  | @command w w' log com msg a t _ hread h ih =>
    rcases storedBy_cases hread h with ⟨hnone, heq⟩ | ⟨word, k, args, f, act, h', hws, -, hlook, hact,
      -, happly, rfl⟩
    · rwa [hnone, List.append_nil, heq]
    · rw [hws]
      exact backed_apply ih happly (records_of_lookup _ hlook _ _ hact)
  | read _ hread hhere hrs h ih =>
    rw [h_of_read hread hhere (Hash.read_eq_some_iff.mpr ⟨_, hrs, rfl⟩) h]
    exact backed_enter _ ih

/-- Every run from an empty table has such a list. -/
theorem exists_reached {rs : List Request} {replies : List Str} {port : Int} {w : World}
    (h : runAll rs (World.fresh port) = some (replies, w)) : ∃ log, Reached w log := by
  refine runAll_invariant (P := fun w => ∃ log, Reached w log) ?_ ⟨[], .fresh port⟩ h
  rintro r - w w' reply ⟨log, hlog⟩ hexec
  by_cases hread : ∀ pw, words r.com = [lit "read", pw] → notHere w.h pw = true
  · exact ⟨_, .command hlog hread hexec⟩
  · push Not at hread
    obtain ⟨pw, hws, hhere⟩ := hread
    have hhere : notHere w.h pw = false := by simpa using hhere
    have hrun : ∃ x, w.h.read w.csv pw = some x := by
      have hexec' := hexec
      rw [execute, hws, executeWords, if_neg (by decide), if_neg (by simp [hhere])] at hexec'
      have hrun : Handler.read.run [pw] r.auth r.currTime w = some (reply, w') := hexec'
      rw [Handler.run, List.headD_cons, World.read] at hrun
      obtain ⟨x, hx, -⟩ := Option.map_eq_some_iff.mp hrun
      obtain ⟨y, hy, -⟩ := Option.map_eq_some_iff.mp hx
      exact ⟨y, hy⟩
    obtain ⟨⟨b, h'⟩, hx⟩ := hrun
    obtain ⟨rs, hrs, -⟩ := Hash.read_eq_some_iff.mp hx
    exact ⟨_, .read hlog hws hhere hrs hexec⟩

/-! ### `hget` -/

variable {com k f : Str} {a : UInt8} {t : Int} {w : World} {log : StoreLog} {n : Kv} {m : Hashmap}

/-- **What `hget` should do**: a field of the map is answered with the value that was stored for it last,
and an error only stands for an absent one. -/
structure RepliesStored (com k f : Str) (a : UInt8) (t : Int) (w : World) (log : StoreLog)
    (m : Hashmap) : Prop where
  stored : ∀ v, m.lookup f = some v →
    lastValue log (k, f) = some v ∧ execute com a t w = some (v, w)
  absent : ∀ msg w', execute com a t w = some (msg, w') →
    msg = noSuchField f ∨ msg = emptyHashmap → m.lookup f = none

/-- `get_v`: the value, or the text that stands for none. -/
theorem getV_eq (m : Hashmap) (f : Str) : m.getV f = (m.lookup f).getD (lit "NULL") := by
  rw [Hashmap.getV, Hashmap.find_eq, Hashmap.lookup]
  cases m.nodes.find? fun n => n.1 = f with
  | none => rfl
  | some n => rfl

/-- The reply of `hget` on a map. -/
def hgetReply (m : Hashmap) (f : Str) : Str :=
  if m.isEmpty then emptyHashmap
  else if (m.lookup f).getD (lit "NULL") = lit "NULL" then noSuchField f
  else (m.lookup f).getD (lit "NULL")

theorem execute_hget (hcom : words com = [lit "hget", k, f]) (hhere : notHere w.h k = false)
    (hnode : w.h.findNode k = some n) (hm : n.v = .hashmap m) (hlive : n.isExpired t = false)
    (hr : n.authr ≤ a) : execute com a t w = some (hgetReply m f, w) := by
  have hget : hget ⟨k, [f], a, t⟩ (some n) = some (hgetReply m f, .keep) := by
    rw [hget, onHashmap, live_of_not_expired (c := ⟨k, [f], a, t⟩) hlive, hm]
    dsimp only
    rw [permitted_of_le (c := ⟨k, [f], a, t⟩) hr, getV_eq, hgetReply]
    have harg : Call.arg ⟨k, [f], a, t⟩ 0 = f := rfl
    rw [harg]
    split_ifs
    · rfl
    · rfl
    · rfl
  rw [execute, hcom, executeWords_keyed (by decide) hhere rfl, hnode, hget]
  rfl

/-- A map with a field is not empty. -/
theorem hgetReply_of_lookup {v : Str} (h : m.lookup f = some v) :
    hgetReply m f = if v = lit "NULL" then noSuchField f else v := by
  have hne : ¬ m.isEmpty = true := by
    rw [Hashmap.isEmpty_iff]
    intro hnil
    rw [Hashmap.lookup, hnil] at h
    exact absurd h (by simp)
  rw [hgetReply, if_neg hne, h, Option.getD_some]

/-- **`hget` replies with what was stored if and only if** the value of the field is neither the text
`NULL` nor one of the two error texts. -/
theorem hget_iff (hw : Reached w log) (hcom : words com = [lit "hget", k, f])
    (hhere : notHere w.h k = false) (hnode : w.h.findNode k = some n) (hm : n.v = .hashmap m)
    (hlive : n.isExpired t = false) (hr : n.authr ≤ a) :
    RepliesStored com k f a t w log m ↔
      ∀ v, m.lookup f = some v → v ≠ lit "NULL" ∧ v ≠ noSuchField f ∧ v ≠ emptyHashmap := by
  have hexec := execute_hget (t := t) hcom hhere hnode hm hlive hr
  constructor
  · intro h v hv
    have hreply : hgetReply m f = v := by
      have hstored := (h.stored v hv).2
      rw [hexec] at hstored
      exact congrArg Prod.fst (Option.some.inj hstored)
    have hpresent : ¬ (v = noSuchField f ∨ v = emptyHashmap) := fun herr =>
      absurd (h.absent v w (by rw [hexec, hreply]) herr) (by simp [hv])
    refine ⟨?_, fun heq => hpresent (Or.inl heq), fun heq => hpresent (Or.inr heq)⟩
    intro hnull
    rw [hgetReply_of_lookup hv, if_pos hnull] at hreply
    exact hpresent (Or.inl hreply.symm)
  · intro h
    refine ⟨fun v hv => ⟨?_, ?_⟩, fun msg w' hmsg herr => ?_⟩
    · refine hw.backed (k, f) v ?_
      rw [fieldOf, hnode, fieldAt, Option.bind_some, hm, Value.field, hv]
    · rw [hexec, hgetReply_of_lookup hv, if_neg (h v hv).1]
    · by_contra hsome
      obtain ⟨v, hv⟩ := Option.ne_none_iff_exists'.mp hsome
      rw [hexec, hgetReply_of_lookup hv, if_neg (h v hv).1] at hmsg
      obtain rfl : v = msg := congrArg Prod.fst (Option.some.inj hmsg)
      exact herr.elim (h v hv).2.1 (h v hv).2.2

/-- A field that was stored twice. -/
theorem hget_twice : ∃ w log, Reached w log ∧ ∃ n m, w.h.findNode (lit "k") = some n ∧
    n.v = .hashmap m ∧ RepliesStored (lit "hget k f") (lit "k") (lit "f") 0 0 w log m := by
  obtain ⟨w, hrun, n, m, hnode, hm, hlive, hr, hhere, hlook⟩ : ∃ w,
      (runAll [⟨lit "hmake k f v", 0, 0⟩, ⟨lit "hpush k f x", 0, 0⟩] (World.fresh 8000)
        = some ([confirmMsg, confirmMsg], w)) ∧ ∃ n m, w.h.findNode (lit "k") = some n ∧
      n.v = .hashmap m ∧ n.isExpired 0 = false ∧ n.authr ≤ 0 ∧ notHere w.h (lit "k") = false ∧
      m.lookup (lit "f") = some (lit "x") :=
    ⟨_, rfl, _, _, rfl, rfl, rfl, by decide, rfl, rfl⟩
  obtain ⟨log, hlog⟩ := exists_reached hrun
  refine ⟨w, log, hlog, n, m, hnode, hm, ?_⟩
  have hcom : words (lit "hget k f") = [lit "hget", lit "k", lit "f"] := rfl
  refine (hget_iff hlog hcom hhere hnode hm hlive hr).mpr fun v hv => ?_
  obtain rfl : lit "x" = v := Option.some.inj (hlook.symm.trans hv)
  exact ⟨by decide, by decide, by decide⟩

/-- **The value `NULL` is not found.** -/
theorem not_hget_null : ¬ ∀ (w : World) (log : StoreLog) (com k f : Str) (a : UInt8) (t : Int) (n : Kv)
    (m : Hashmap), Reached w log → words com = [lit "hget", k, f] → notHere w.h k = false →
    w.h.findNode k = some n → n.v = .hashmap m → n.isExpired t = false → n.authr ≤ a →
    RepliesStored com k f a t w log m := by
  intro h
  obtain ⟨w, hrun, n, m, hnode, hm, hlive, hr, hhere, hlook, hmsg⟩ : ∃ w,
      runAll [⟨lit "hmake k f NULL", 0, 0⟩] (World.fresh 8000) = some ([confirmMsg], w) ∧
      ∃ n m, w.h.findNode (lit "k") = some n ∧ n.v = .hashmap m ∧ n.isExpired 0 = false ∧
        n.authr ≤ 0 ∧ notHere w.h (lit "k") = false ∧ m.lookup (lit "f") = some (lit "NULL") ∧
        execute (lit "hget k f") 0 0 w = some (noSuchField (lit "f"), w) :=
    ⟨_, rfl, _, _, rfl, rfl, rfl, by decide, rfl, rfl, rfl⟩
  obtain ⟨log, hlog⟩ := exists_reached hrun
  have hstored := (h w log (lit "hget k f") (lit "k") (lit "f") 0 0 n m hlog rfl hhere hnode hm hlive
    hr).stored _ hlook
  rw [hmsg] at hstored
  have heq : noSuchField (lit "f") = lit "NULL" := congrArg Prod.fst (Option.some.inj hstored.2)
  exact absurd heq (by decide)

end Command

end MuseKv
