import MuseKv.Command.Equiv.Execute
import MuseKv.Command.Shown

/-!
# A reply is marked when it shows a marked text

`Reports` relates a reply to what is shown: a text is the reply, a name gives the reply its mark, and
a reply that shows nothing has no mark.  `Tells` says it of a result.  The opening tests pass it on,
so there is one lemma for each handler, with the nesting of its source.
-/

namespace MuseKv.Command

open General Kvstore

/-- A reply that shows what it is said to show. -/
inductive Reports : Option Shown → Str → Prop
  | plain {msg : Str} (h : ¬ Marked msg) : Reports none msg
  | name {x msg : Str} (h : lit "hashval" <:+: msg ↔ lit "hashval" <:+: x)
      (hmagic : ∀ word ∈ controlWords, msg ≠ magic word) : Reports (some (.name x)) msg
  | text {x : Str} : Reports (some (.text x)) x

/-- The reply of a result shows what it is said to show. -/
def Tells (shown : Option Shown) (r : Result) : Prop :=
  ∀ msg a, r = some (msg, a) → Reports shown msg

/-- **A reply is marked if and only if it shows a marked text.** -/
theorem Reports.marked_iff {o : Option Shown} {msg : Str} (h : Reports o msg) :
    Marked msg ↔ ∃ x, o = some x ∧ x.Marked := by
  cases h with
  | plain h => simpa using h
  | @name x _ h hmagic =>
    have hm : Marked msg ↔ lit "hashval" <:+: x := by
      rw [Marked, or_iff_left fun ⟨word, hw, heq⟩ => hmagic word hw heq, h]
    simpa [Shown.Marked] using hm
  | text => simp [Shown.Marked]

/-! ### Texts without a mark -/

/-- Every mark has an `h`, or else starts with a blank and a backspace. -/
theorem not_marked {msg : Str} (hh : byte 'h' ∉ msg) (hb : backspace ∉ msg) : ¬ Marked msg := by
  rintro (hm | ⟨word, -, rfl⟩)
  · exact hh (hm.subset (by decide))
  · exact hb (List.mem_cons_of_mem _ (List.mem_cons_self ..))

theorem not_marked_toStr (x : Int) : ¬ Marked (toStr x) :=
  not_marked (not_mem_toStr (by decide) (by decide) x) (not_mem_toStr (by decide) (by decide) x)

/-- A name in a message gives the message its mark. -/
theorem reports_name {pre x : Str} (hpre : ∀ c ∈ pre, c ∉ lit "hashval")
    (hhead : pre.head? ≠ some (byte ' ')) (hne : pre ≠ []) :
    Reports (some (.name x)) (pre ++ x ++ lit ")") := by
  refine .name (infix_frame_iff (by decide) hpre (not_mem_of_all (by decide))) fun word _ hword => ?_
  obtain ⟨c, pre, rfl⟩ := List.exists_cons_of_ne_nil hne
  exact hhead (congrArg some (List.cons.inj hword).1)

variable {c : Call} {node : Option Kv}

/-! ### Results -/

theorem Tells.fault {q : Option Shown} : Tells q none := fun _ _ h => absurd h (by simp)

theorem Tells.answer {o : Option Shown} {msg : Str} {a : KeyAction} (h : Reports o msg) :
    Tells o (some (msg, a)) := by
  intro msg' a' ha
  obtain ⟨rfl, -⟩ := Prod.mk.inj (Option.some.inj ha)
  exact h

theorem Tells.plain {msg : Str} {a : KeyAction} (h : ¬ Marked msg) : Tells none (some (msg, a)) :=
  .answer (.plain h)

theorem Tells.text {x : Str} {a : KeyAction} : Tells (some (.text x)) (some (x, a)) :=
  .answer .text

theorem Tells.noSuchKey {k : Str} {a : KeyAction} :
    Tells (some (.name k)) (some (noSuchKey k, a)) :=
  .answer (reports_name (not_mem_of_all (by decide)) (by decide) (by decide))

theorem Tells.noSuchElement {x : Str} {a : KeyAction} :
    Tells (some (.name x)) (some (noSuchElement x, a)) :=
  .answer (reports_name (not_mem_of_all (by decide)) (by decide) (by decide))

theorem Tells.noSuchField {f : Str} {a : KeyAction} :
    Tells (some (.name f)) (some (noSuchField f, a)) :=
  .answer (reports_name (not_mem_of_all (by decide)) (by decide) (by decide))

theorem Tells.ok {a : KeyAction} : Tells none (some (confirmMsg, a)) :=
  .plain (not_marked (by decide) (by decide))

theorem Tells.denied : Tells none (reply notEnoughPermission) :=
  .plain (not_marked (by decide) (by decide))

theorem Tells.wrongType : Tells none (reply invalidType) :=
  .plain (not_marked (by decide) (by decide))

theorem Tells.wrongAuth : Tells none (reply invalidAuth) :=
  .plain (not_marked (by decide) (by decide))

theorem Tells.noElement : Tells none (reply emptyList) :=
  .plain (not_marked (by decide) (by decide))

theorem Tells.noField : Tells none (reply emptyHashmap) :=
  .plain (not_marked (by decide) (by decide))

theorem Tells.number {x : Int} {a : KeyAction} : Tells none (some (toStr x, a)) :=
  .plain (not_marked_toStr x)

theorem Tells.ite {p : Prop} [Decidable p] {q q' : Option Shown} {r r' : Result}
    (h : p → Tells q r) (h' : ¬ p → Tells q' r') :
    Tells (if p then q else q') (if p then r else r') := by
  split_ifs with hp
  · exact h hp
  · exact h' hp

/-! ### The opening tests -/

theorem Tells.permitted {level : UInt8} {q : Option Shown} {body : Result} (h : Tells q body) :
    Tells (Quote.permitted c level q) (permitted c level body) :=
  .ite (fun _ => .denied) fun _ => h

theorem Tells.live {q : Kv → Option Shown} {body : Kv → Result} (h : ∀ n, Tells (q n) (body n)) :
    Tells (Quote.live c node q) (live c node body) := by
  cases node with
  | none => exact .noSuchKey
  | some n => exact .ite (fun _ => .noSuchKey) fun _ => h n

theorem Tells.present {body : Kv → Result} (h : ∀ n, Tells none (body n)) :
    Tells (Quote.present c node) (present c node body) := by
  cases node with
  | none => exact .noSuchKey
  | some n => exact h n

theorem Tells.overwritable {body : Result} (h : Tells none body) :
    Tells none (overwritable c node body) := by
  cases node with
  | none => exact h
  | some n =>
    rw [Command.overwritable, Command.permitted]
    split_ifs
    · exact .denied
    · exact h

theorem Tells.onList {level : Kv → UInt8} {q : List Str → Option Shown}
    {body : Kv → List Str → Result} (h : ∀ n l, Tells (q l) (body n l)) :
    Tells (Quote.onList c level node q) (onList c level node body) := by
  refine .live fun n => ?_
  cases n.v with
  | list l => exact .permitted (h n l)
  | _ => exact .wrongType

theorem Tells.onSet {level : Kv → UInt8} {q : Hashset → Option Shown}
    {body : Kv → Hashset → Result} (h : ∀ n s, Tells (q s) (body n s)) :
    Tells (Quote.onSet c level node q) (onSet c level node body) := by
  refine .live fun n => ?_
  cases n.v with
  | set s => exact .permitted (h n s)
  | _ => exact .wrongType

theorem Tells.onHashmap {level : Kv → UInt8} {q : Hashmap → Option Shown}
    {body : Kv → Hashmap → Result} (h : ∀ n m, Tells (q m) (body n m)) :
    Tells (Quote.onHashmap c level node q) (onHashmap c level node body) := by
  refine .live fun n => ?_
  cases n.v with
  | hashmap m => exact .permitted (h n m)
  | _ => exact .wrongType

theorem Tells.withInt {str bad : Str} {q : Int → Option Shown} {body : Int → Result}
    (hbad : Tells none (reply bad)) (h : ∀ x, Tells (q x) (body x)) :
    Tells (Quote.withInt str q) (withInt str bad body) := by
  rw [Quote.withInt, Command.withInt]
  rcases strtoint str with _ | ⟨_ | _, x⟩
  · exact .fault
  · exact hbad
  · exact h x

/-- An integer argument of a command that shows nothing behind it. -/
theorem Tells.withInt' {str bad : Str} {body : Int → Result} (hbad : Tells none (reply bad))
    (h : ∀ x, Tells none (body x)) : Tells none (Command.withInt str bad body) := by
  rw [Command.withInt]
  split
  next => exact .fault
  next => exact hbad
  next x _ => exact h x

theorem Tells.withinAuth {x : Int} {body : Result} (h : Tells none body) :
    Tells none (withinAuth c x body) := by
  rw [Command.withinAuth]
  split_ifs
  · exact .denied
  · exact h

/-- A branch of a command that shows nothing in either branch. -/
theorem Tells.ite' {p : Prop} [Decidable p] {r r' : Result} (h : p → Tells none r)
    (h' : ¬ p → Tells none r') : Tells none (if p then r else r') := by
  split_ifs with hp
  · exact h hp
  · exact h' hp

theorem Tells.map_text {o : Option Str} {a : KeyAction} :
    Tells (o.map .text) (o.map fun x => (x, a)) := by
  cases o with
  | none => exact .fault
  | some x => exact .text

theorem Tells.map {α : Type} {o : Option α} {f : α → Str × KeyAction}
    (h : ∀ x, Tells none (some (f x))) : Tells none (o.map f) := by
  cases o with
  | none => exact .fault
  | some x => exact h x

/-! ### The handlers -/

theorem get_tells : Tells (Quote.get c node) (get c node) :=
  .live fun _ => .permitted .map_text

theorem make_tells : Tells none (make c node) := by
  refine .overwritable ?_
  split
  next => exact .ok
  next => exact .withInt' .wrongAuth fun _ => .ite' (fun _ => .wrongAuth) fun _ => .withinAuth .ok
  next =>
    split
    next =>
      exact .ite' (fun _ => .wrongAuth) fun _ => .ite' (fun _ => .wrongAuth) fun _ =>
        .withinAuth (.withinAuth (.ite' (fun _ => .wrongAuth) fun _ => .ok))
    next => exact .fault
  next => exact .fault

theorem permitted_tells {level : UInt8} {body : Result} (h : Tells none body) :
    Tells none (permitted c level body) :=
  .ite' (fun _ => .denied) fun _ => h

theorem del_tells : Tells (Quote.present c node) (del c node) :=
  .present fun _ => permitted_tells .ok

theorem setLevel_tells (mutator : Kv → UInt8 → Kv) :
    Tells (Quote.present c node) (setLevel mutator c node) := by
  exact .present fun _ => .withInt' .wrongAuth fun _ => .ite' (fun _ => .wrongAuth) fun _ =>
    .withinAuth (permitted_tells .ok)

theorem expire_tells : Tells (Quote.expire c node) (expire c node) :=
  .withInt (.plain (not_marked (by decide) (by decide))) fun _ => .live fun _ => permitted_tells .ok

theorem getTtl_tells : Tells (Quote.alive c node) (getTtl c node) :=
  .live fun _ => permitted_tells .number

theorem lmake_tells : Tells none (lmake c node) :=
  .overwritable (.map fun _ => .number)

/-- A change of a list that is answered by a fixed text. -/
theorem onList_tells {level : Kv → UInt8} {body : Kv → List Str → Result}
    (h : ∀ n l, Tells none (body n l)) : Tells (Quote.alive c node) (onList c level node body) := by
  refine .live fun n => ?_
  cases n.v with
  | list l => exact permitted_tells (h n l)
  | _ => exact .wrongType

theorem lpush_tells : Tells (Quote.alive c node) (lpush c node) := onList_tells fun _ _ => .ok

theorem rpush_tells : Tells (Quote.alive c node) (rpush c node) := onList_tells fun _ _ => .ok

theorem popList_tells (pop : List Str → Str × List Str) :
    Tells (Quote.popList pop c node) (popList pop c node) :=
  .onList fun _ _ => .ite (fun _ => .noElement) fun _ => .text

theorem lget_tells : Tells (Quote.lget c node) (lget c node) :=
  .onList fun _ _ => .ite (fun _ => .noElement) fun _ =>
    .withInt (.plain (not_marked (by decide) (by decide))) fun _ => .map_text

theorem lset_tells : Tells (Quote.alive c node) (lset c node) :=
  onList_tells fun _ _ => .ite' (fun _ => .noElement) fun _ =>
    .withInt' (.plain (not_marked (by decide) (by decide))) fun _ =>
      .map fun _ => .ok

theorem lerase_tells : Tells (Quote.alive c node) (lerase c node) :=
  onList_tells fun _ _ => .ite' (fun _ => .noElement) fun _ =>
    .withInt' (.plain (not_marked (by decide) (by decide))) fun _ => .ok

theorem smake_tells : Tells none (smake c node) :=
  .overwritable (.map fun _ => .number)

theorem spush_tells : Tells (Quote.alive c node) (spush c node) := by
  refine .live fun n => ?_
  cases n.v with
  | set s => exact permitted_tells .ok
  | _ => exact .wrongType

theorem spop_tells : Tells (Quote.spop c node) (spop c node) :=
  .onSet fun _ s => .ite (fun _ => .noElement) fun _ => .text (x := s.pop.1)

theorem serase_tells : Tells (Quote.serase c node) (serase c node) := by
  refine .onSet fun n s => ?_
  cases hs : s.isEmpty with
  | true =>
    rw [Bool.true_or, if_pos rfl, if_pos rfl]
    exact .noElement
  | false =>
    rw [Bool.false_or, if_neg Bool.false_ne_true]
    cases (s.del (c.arg 0)).1 with
    | true => exact .ok
    | false => exact .noSuchElement

theorem sort_tells : Tells (Quote.sort c node) (sort c node) := by
  refine .live fun n => ?_
  cases n.v with
  | list l => exact .permitted .map_text
  | set s => exact .permitted .map_text
  | _ => exact .wrongType

theorem hmake_tells : Tells none (hmake c node) :=
  .ite' (fun _ => .plain (not_marked (by decide) (by decide))) fun _ =>
    .overwritable (.map fun _ => .ok)

theorem hpush_tells : Tells (Quote.alive c node) (hpush c node) := by
  refine .live fun n => ?_
  cases n.v with
  | hashmap m => exact permitted_tells .ok
  | _ => exact .wrongType

theorem hget_tells : Tells (Quote.hget c node) (hget c node) :=
  .onHashmap fun _ _ => .ite (fun _ => .noField) fun _ =>
    .ite (fun _ => .noSuchField) fun _ => .text

theorem listing_tells (text : Hashmap → Str) :
    Tells (Quote.listing text c node) (listing text c node) :=
  .onHashmap fun _ _ => .ite (fun _ => .noField) fun _ => .text

theorem herase_tells : Tells (Quote.herase c node) (herase c node) := by
  refine .onHashmap fun n m => .ite (fun _ => .noField) fun _ => ?_
  cases m.findHashmapNode (c.arg 0) with
  | none => exact .noSuchField
  | some r =>
    rw [if_neg (Option.some_ne_none r)]
    exact .map fun _ => .ok

/-! ### `execute` -/

/-- A refused command has a second word, and its hash is outside the bounds. -/
theorem refused_iff {h : Hash} {ws : List Str} :
    refused h ws = true ↔ ∃ k, ws[1]? = some k ∧ notHere h k = true := by
  rw [refused, List.head?_tail, Option.any_eq_true]

theorem handler_tells {word : Str} {n : ℕ} {f : KeyHandler}
    (h : lookup dispatch word n = some (.keyed f)) (c : Call) (node : Option Kv) :
    Tells ((quotes.lookup word).bind fun quote => quote c node) (f c node) := by
  have hall : ∀ row ∈ dispatch, ∀ f, row.2.2 = .keyed f → ∀ c node,
      Tells ((quotes.lookup row.1).bind fun quote => quote c node) (f c node) := by
    simp only [dispatch, List.forall_mem_cons, Handler.keyed.injEq, forall_eq', reduceCtorEq,
      IsEmpty.forall_iff, implies_true, true_and, List.not_mem_nil, and_true]
    exact ⟨fun _ _ => get_tells, fun _ _ => make_tells, fun _ _ => make_tells,
      fun _ _ => make_tells, fun _ _ => del_tells, fun _ _ => lmake_tells, fun _ _ => lpush_tells,
      fun _ _ => rpush_tells, fun _ _ => popList_tells _, fun _ _ => popList_tells _,
      fun _ _ => lget_tells, fun _ _ => lset_tells, fun _ _ => lerase_tells, fun _ _ => smake_tells,
      fun _ _ => spush_tells, fun _ _ => spop_tells, fun _ _ => serase_tells, fun _ _ => sort_tells,
      fun _ _ => hmake_tells, fun _ _ => hpush_tells, fun _ _ => hget_tells,
      fun _ _ => listing_tells _, fun _ _ => listing_tells _, fun _ _ => herase_tells,
      fun _ _ => setLevel_tells _, fun _ _ => setLevel_tells _, fun _ _ => expire_tells,
      fun _ _ => getTtl_tells⟩
  obtain ⟨arity, hmem, -⟩ := lookup_eq_some h
  exact hall _ hmem f rfl c node

/-- **The reply to a command shows what `shown` says**, unless the command is a control word or its
key is refused. -/
theorem reports_shown {ws : List Str} {auth : UInt8} {t : Int} {w w' : World} {msg : Str}
    (hctl : ∀ word ∈ ws.head?, word ∉ controlWords) (hhere : refused w.h ws = false)
    (h : executeWords ws auth t w = some (msg, w')) : Reports (shown ws auth t w.h) msg := by
  match ws with
  | [] =>
    obtain ⟨rfl, -⟩ := Prod.mk.inj (Option.some.inj h)
    exact .plain (not_marked (by decide) (by decide))
  | word :: args =>
    rw [executeWords, if_neg (hctl word rfl), if_neg (by simpa [refused] using hhere)] at h
    rw [shown]
    cases hlook : lookup dispatch word (args.length + 1) with
    | none =>
      rw [hlook] at h
      obtain ⟨rfl, -⟩ := Prod.mk.inj (Option.some.inj h)
      exact .plain (not_marked (by decide) (by decide))
    | some handler =>
      rw [hlook] at h
      cases handler with
      | keyed f =>
        obtain ⟨r, hr, h⟩ := Option.bind_eq_some_iff.mp h
        obtain ⟨h', -, heq⟩ := Option.map_eq_some_iff.mp h
        obtain ⟨rfl, -⟩ := Prod.mk.inj heq
        exact handler_tells hlook _ _ r.1 r.2 hr
      | keys =>
        simp only [Handler.run, Option.some.injEq, Prod.mk.injEq] at h
        obtain ⟨rfl, -⟩ := h
        exact .text
      -- `save` and `read` answer with a text of their own
      | save =>
        obtain ⟨r, -, heq⟩ := Option.map_eq_some_iff.mp h
        obtain ⟨rfl, -⟩ := Prod.mk.inj heq
        refine .plain ?_
        split_ifs
        · exact not_marked (by decide) (by decide)
        · exact not_marked (by decide) (by decide)
      | read =>
        obtain ⟨r, -, heq⟩ := Option.map_eq_some_iff.mp h
        obtain ⟨rfl, -⟩ := Prod.mk.inj heq
        refine .plain ?_
        split_ifs
        · exact not_marked (by decide) (by decide)
        · exact not_marked (by decide) (by decide)

end MuseKv.Command
