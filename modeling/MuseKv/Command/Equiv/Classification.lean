import MuseKv.Command.Equiv.Answers
import MuseKv.Command.Equiv.Replay
import MuseKv.Command.Equiv.WriteProtection

/-!
# The classification of a command

`execute` and `command_type` are two tables over the same words.  They have the same rows, apart from
`xkeys`, `xsave` and `exit` (`dispatch_rows`), so a command has a handler if and only if it has a type.
A handler whose commands are not of the type `Write` leaves an entry that is not expired as it is
(`Idle`, one lemma for each reading handler).
-/

namespace MuseKv

open Kvstore Command

namespace Command

variable {c : Call} {node : Option Kv}

/-! ### The reading handlers -/

/-- An action that leaves the table alone: none, or the entry is written back. -/
def Idle (node : Option Kv) (a : KeyAction) : Prop := a = .keep ∨ ∃ n, node = some n ∧ a = .write n

/-- A handler that leaves an entry which is not expired as it is. -/
def Reading (f : KeyHandler) : Prop :=
  ∀ c node, (∀ n : Kv, node = some n → n.isExpired c.currTime = false) →
    Answers (fun _ a => Idle node a) (f c node)

/-- Behind the tests of a live entry. -/
theorem reading_live {body : Call → Kv → Result}
    (h : ∀ c n, Answers (fun _ a => a = .keep) (body c n)) :
    Reading fun c node => live c node (body c) :=
  fun c _ hlive => .live hlive (Or.inl rfl) fun n _ msg a ha => Or.inl (h c n msg a ha)

theorem get_reading : Reading get :=
  reading_live fun _ _ => .permitted rfl fun _ => .map fun _ _ => rfl

theorem lget_reading : Reading lget := by
  refine reading_live fun c n => ?_
  split
  next =>
    exact .permitted rfl fun _ => .ite (fun _ => .act rfl) fun _ =>
      .withInt rfl fun _ _ => .map fun _ _ => rfl
  next => exact .act rfl

theorem sort_reading : Reading sort := by
  refine reading_live fun c n => ?_
  split
  next => exact .permitted rfl fun _ => .map fun _ _ => rfl
  next => exact .permitted rfl fun _ => .map fun _ _ => rfl
  next => exact .act rfl

theorem hget_reading : Reading hget := by
  refine reading_live fun c n => ?_
  split
  next =>
    exact .permitted rfl fun _ => .ite (fun _ => .act rfl) fun _ =>
      .ite (fun _ => .act rfl) fun _ => .act rfl
  next => exact .act rfl

theorem listing_reading (text : Hashmap → Str) : Reading (listing text) := by
  refine reading_live fun c n => ?_
  split
  next => exact .permitted rfl fun _ => .ite (fun _ => .act rfl) fun _ => .act rfl
  next => exact .act rfl

/-- `ttl` writes the entry back: `get_ttl` marks expired entries only. -/
theorem getTtl_reading : Reading getTtl := by
  intro c node hlive
  refine .live hlive (Or.inl rfl) fun n hn => .permitted (Or.inl rfl) fun _ => .act (Or.inr ?_)
  exact ⟨n, hn, by rw [Kv.getTtl_of_not_expired (hlive n hn)]⟩

/-! ### The two tables -/

/-- The words of type `Write`. -/
def updateWords : List Str := lit "expire" :: lit "read" :: writeWords

/-- The words that only one of the tables has. -/
def exceptions : List Str := [lit "xkeys", lit "xsave", lit "exit"]

/-- **The tables have the same rows**, apart from the exceptions. -/
theorem dispatch_rows :
    (dispatch.filter fun row => row.1 ∉ exceptions).map (fun row => (row.1, row.2.1))
      = (typeTable.filter fun row => row.1 ∉ exceptions).map fun row => (row.1, row.2.1) := by
  rfl

theorem exception_rows :
    (dispatch.filter fun row => row.1 ∈ exceptions).map (fun row => row.2.1)
        = [.exactly 1, .exactly 1] ∧
      (typeTable.filter fun row => row.1 ∈ exceptions).map (fun row => row.2.1) = [.exactly 1] :=
  ⟨rfl, rfl⟩

/-- An exception is a single word. -/
theorem lookup_exception {α : Type} {table : List (Str × Arity × α)} {word : Str} {n : ℕ}
    (htable : ∀ arity ∈ (table.filter fun row => row.1 ∈ exceptions).map (fun row => row.2.1),
      arity = .exactly 1) (hword : word ∈ exceptions) (hn : n ≠ 1) : lookup table word n = none := by
  by_contra hne
  obtain ⟨x, hx⟩ := Option.ne_none_iff_exists'.mp hne
  obtain ⟨arity, hmem, harity⟩ := lookup_eq_some hx
  have hone : arity = .exactly 1 := htable arity
    (List.mem_map.mpr ⟨_, List.mem_filter.mpr ⟨hmem, decide_eq_true hword⟩, rfl⟩)
  rw [hone, Arity.holds, beq_iff_eq] at harity
  exact hn harity

theorem lookup_isSome_iff {α : Type} {table : List (Str × Arity × α)} {word : Str} {n : ℕ}
    (hword : word ∉ exceptions) : (lookup table word n).isSome ↔
      ∃ arity, (word, arity) ∈ (table.filter fun row => row.1 ∉ exceptions).map
        (fun row => (row.1, row.2.1)) ∧ arity.holds n = true := by
  rw [lookup, Option.isSome_map, List.find?_isSome]
  constructor
  · rintro ⟨row, hrow, htest⟩
    rw [Bool.and_eq_true, decide_eq_true_eq] at htest
    obtain ⟨rfl, harity⟩ := htest
    refine ⟨row.2.1, List.mem_map.mpr ⟨row, List.mem_filter.mpr ⟨hrow, ?_⟩, rfl⟩, harity⟩
    exact decide_eq_true hword
  · rintro ⟨arity, hmem, harity⟩
    obtain ⟨row, hrow, heq⟩ := List.mem_map.mp hmem
    obtain ⟨rfl, rfl⟩ := Prod.mk.inj heq
    exact ⟨row, (List.mem_filter.mp hrow).1, by simp [harity]⟩

/-- **The same commands are found in both tables.** -/
theorem lookup_dispatch_isSome_iff {word : Str} {n : ℕ} (h : word ∈ exceptions → n ≠ 1) :
    (lookup dispatch word n).isSome ↔ (lookup typeTable word n).isSome := by
  by_cases hword : word ∈ exceptions
  · have hn := h hword
    rw [lookup_exception (by rw [exception_rows.1]; simp) hword hn,
      lookup_exception (by rw [exception_rows.2]; simp) hword hn]
    exact Iff.rfl
  · rw [lookup_isSome_iff hword, lookup_isSome_iff hword, dispatch_rows]

/-! ### The types -/

/-- No row has the type `Invalid`, and a word of type `Write` has no row of another type. -/
theorem typeTable_types :
    (∀ row ∈ typeTable, row.2.2 ≠ .invalid) ∧
      ∀ row ∈ typeTable, row.1 ∈ updateWords → row.2.2 = .write := by
  decide +kernel

theorem commandType_eq {com word : Str} {args : List Str} (h : words com = word :: args) :
    commandType com = (lookup typeTable word (args.length + 1)).getD .invalid := by
  rw [commandType, h]

theorem commandType_ne_invalid_iff {com word : Str} {args : List Str}
    (h : words com = word :: args) :
    commandType com ≠ .invalid ↔ (lookup typeTable word (args.length + 1)).isSome := by
  rw [commandType_eq h]
  cases hlook : lookup typeTable word (args.length + 1) with
  | none => simp
  | some ty =>
    obtain ⟨arity, hmem, -⟩ := lookup_eq_some hlook
    simpa using typeTable_types.1 _ hmem

/-- The handlers of the words that are not of type `Write`. -/
theorem keyed_reading {word : Str} {n : ℕ} {f : KeyHandler}
    (h : lookup dispatch word n = some (.keyed f)) : word ∈ updateWords ∨ Reading f := by
  have hall : ∀ row ∈ dispatch, ∀ f, row.2.2 = .keyed f → row.1 ∈ updateWords ∨ Reading f := by
    simp only [dispatch, List.forall_mem_cons, Handler.keyed.injEq, forall_eq', reduceCtorEq,
      IsEmpty.forall_iff, implies_true, true_and, List.not_mem_nil, and_true]
    have hw : ∀ {word : Str} {P : Prop}, word ∈ updateWords → word ∈ updateWords ∨ P :=
      fun h => Or.inl h
    exact ⟨Or.inr get_reading, hw (by decide), hw (by decide), hw (by decide), hw (by decide),
      hw (by decide), hw (by decide), hw (by decide), hw (by decide), hw (by decide),
      Or.inr lget_reading, hw (by decide), hw (by decide), hw (by decide), hw (by decide),
      hw (by decide), hw (by decide), Or.inr sort_reading, hw (by decide), hw (by decide),
      Or.inr hget_reading, Or.inr (listing_reading _), Or.inr (listing_reading _),
      hw (by decide), hw (by decide), hw (by decide), hw (by decide), Or.inr getTtl_reading⟩
  obtain ⟨arity, hmem, -⟩ := lookup_eq_some h
  exact hall _ hmem f rfl

/-! ### Execution -/

/-- The handler that `execute` calls. -/
def handlerFor (h : Hash) (com : Str) : Option Handler :=
  match words com with
  | [] => none
  | word :: args =>
    if word ∈ controlWords ∨ args.head?.any (notHere h) then none
    else lookup dispatch word (args.length + 1)

theorem handlerFor_eq {h : Hash} {com word : Str} {args : List Str} (hws : words com = word :: args)
    (hctl : word ∉ controlWords) (hhere : refused h (word :: args) = false) :
    handlerFor h com = lookup dispatch word (args.length + 1) := by
  have hno : ¬ (word ∈ controlWords ∨ args.head?.any (notHere h) = true) :=
    not_or.mpr ⟨hctl, Bool.eq_false_iff.mp hhere⟩
  unfold handlerFor
  rw [hws]
  exact if_neg hno

/-- An inactive action leaves the whole table alone. -/
theorem apply_of_idle {h h' : Hash} {k : Str} {a : KeyAction} (hidle : Idle (h.findNode k) a)
    (ha : h.apply k a = some h') : h' = h := by
  obtain rfl | ⟨n, hn, rfl⟩ := hidle
  · exact (Option.some.inj ha).symm
  · rw [← Option.some.inj ha]
    exact Hash.alter_of_findNode hn rfl

theorem commandType_of_updateWord {com word : Str} {args : List Str}
    (hws : words com = word :: args) (hword : word ∈ updateWords)
    (h : (lookup dispatch word (args.length + 1)).isSome) : commandType com = .write := by
  have hdisjoint : ∀ word ∈ updateWords, word ∉ exceptions := by decide +kernel
  have htable := (lookup_dispatch_isSome_iff fun he => absurd he (hdisjoint word hword)).mp h
  obtain ⟨ty, hty⟩ := Option.isSome_iff_exists.mp htable
  obtain ⟨arity, hmem, -⟩ := lookup_eq_some hty
  rw [commandType_eq hws, hty]
  exact typeTable_types.2 _ hmem hword

/-- **A command that is not of the type `Write` leaves the table alone**, when no entry is expired. -/
theorem execute_of_not_write {com : Str} {auth : UInt8} {t : Int} {w w' : World} {msg : Str}
    (hlive : ∀ k n, w.h.findNode k = some n → n.isExpired t = false)
    (htype : commandType com ≠ .write) (h : execute com auth t w = some (msg, w')) :
    w'.h = w.h := by
  have hupdate : ∀ word args, words com = word :: args → word ∈ updateWords →
      ¬ (lookup dispatch word (args.length + 1)).isSome :=
    fun word args hws hword hsome => htype (commandType_of_updateWord hws hword hsome)
  rcases executeWords_cases h with rfl | hkey | ⟨-, b, hsave⟩ | ⟨pw, b, hws, -⟩
  · rfl
  · obtain ⟨word, k, args, f, a, h', hws, -, hlook, hf, -, ha, rfl⟩ := hkey
    rcases keyed_reading hlook with hword | hreading
    · refine absurd ?_ (hupdate word (k :: args) hws hword)
      rw [List.length_cons, hlook]
      rfl
    · exact apply_of_idle (hreading _ _ (hlive k) _ _ hf) ha
  · exact save_h hsave
  · exact absurd rfl (hupdate (lit "read") [pw] hws (by decide))

/-- The handler that is called runs on the words behind the first one. -/
theorem execute_of_handlerFor {com : Str} {auth : UInt8} {t : Int} {w : World} {handler : Handler}
    (h : handlerFor w.h com = some handler) :
    execute com auth t w = handler.run (words com).tail auth t w := by
  rw [handlerFor] at h
  rw [execute]
  cases hws : words com with
  | nil =>
    rw [hws] at h
    exact absurd h (by simp)
  | cons word args =>
    rw [hws] at h
    dsimp only at h
    split_ifs at h with hno
    rw [not_or] at hno
    rw [executeWords, if_neg hno.1, if_neg hno.2, h]
    rfl

/-- **The classification is sound.**  What is not of the type `Write` leaves the table alone, and a
handler is called if and only if the type is not `Invalid`, apart from the exceptions. -/
theorem classification_sound {com : Str} {auth : UInt8} {t : Int} {w : World}
    (hctl : ∀ word ∈ (words com).head?, word ∉ controlWords)
    (hhere : refused w.h (words com) = false)
    (hlive : ∀ k n, w.h.findNode k = some n → n.isExpired t = false) :
    (commandType com ≠ .write → ∀ msg w', execute com auth t w = some (msg, w') → w'.h = w.h) ∧
      ((∀ word ∈ exceptions, words com ≠ [word]) →
        ((∃ handler, handlerFor w.h com = some handler ∧
            execute com auth t w = handler.run (words com).tail auth t w) ↔
          commandType com ≠ .invalid)) := by
  refine ⟨fun htype msg w' h => execute_of_not_write hlive htype h, fun hexc => ?_⟩
  have hcalls : (∃ handler, handlerFor w.h com = some handler ∧
      execute com auth t w = handler.run (words com).tail auth t w)
        ↔ (handlerFor w.h com).isSome := by
    rw [Option.isSome_iff_exists]
    exact ⟨fun ⟨x, hx, _⟩ => ⟨x, hx⟩, fun ⟨x, hx⟩ => ⟨x, hx, execute_of_handlerFor hx⟩⟩
  rw [hcalls]
  cases hws : words com with
  | nil => simp [handlerFor, commandType, hws]
  | cons word args =>
    rw [hws] at hctl hhere hexc
    rw [commandType_ne_invalid_iff hws, handlerFor_eq hws (hctl word rfl) hhere]
    refine lookup_dispatch_isSome_iff fun hword hone => ?_
    have hnil : args = [] := List.length_eq_zero_iff.mp (by omega)
    exact hexc word hword (by rw [hnil])

/-- A lookup of the guarded entry. -/
theorem classification_sound_get :
    (commandType (lit "get k") ≠ .write →
        ∀ msg w', execute (lit "get k") 0 0 guarded = some (msg, w') → w'.h = guarded.h) ∧
      ((∀ word ∈ exceptions, words (lit "get k") ≠ [word]) →
        ((∃ handler, handlerFor guarded.h (lit "get k") = some handler ∧
            execute (lit "get k") 0 0 guarded
              = handler.run (words (lit "get k")).tail 0 0 guarded) ↔
          commandType (lit "get k") ≠ .invalid)) := by
  refine classification_sound ?_ rfl fun k n hn => ?_
  · intro word hword
    obtain rfl := Option.some.inj hword
    decide
  · rw [guarded, Hash.findNode_set] at hn
    split_ifs at hn with hk
    · rw [← Option.some.inj hn]
      rfl
    · exact absurd hn (by simp)

/-- **A command of the type `Read` may end the process**: `sort` of an emptied list leaves no table. -/
theorem not_classification_sound_sort : ¬ ∀ (rs : List Request) (replies : List Str) (w : World)
    (com : Str) (auth : UInt8) (t : Int), runAll rs (World.fresh 8000) = some (replies, w) →
    (∀ word ∈ (words com).head?, word ∉ controlWords) → refused w.h (words com) = false →
    (∀ k n, w.h.findNode k = some n → n.isExpired t = false) →
    (commandType com ≠ .write → ∃ msg w', execute com auth t w = some (msg, w') ∧ w'.h = w.h) := by
  intro h
  obtain ⟨replies, w, hrun, hhere, hkeys, hlive, hfault⟩ : ∃ replies w,
      runAll [⟨lit "lmake x a", 0, 0⟩, ⟨lit "lpop x", 0, 0⟩] (World.fresh 8000) = some (replies, w) ∧
        refused w.h (words (lit "sort x")) = false ∧ w.h.keys = [lit "x"] ∧
        (∀ n, w.h.findNode (lit "x") = some n → n.isExpired 0 = false) ∧
        execute (lit "sort x") 0 0 w = none :=
    ⟨_, _, rfl, rfl, by decide +kernel, fun n hn => by rw [← Option.some.inj hn]; rfl, rfl⟩
  have hall : ∀ k n, w.h.findNode k = some n → n.isExpired 0 = false := by
    intro k n hn
    have hmem : k ∈ w.h.keys := List.mem_map_of_mem (Hash.findNode_eq_some_iff.mp hn)
    rw [hkeys, List.mem_singleton] at hmem
    exact hlive n (hmem ▸ hn)
  obtain ⟨msg, w', hsome, -⟩ := h _ _ w (lit "sort x") 0 0 hrun (by
    intro word hword
    obtain rfl := Option.some.inj hword
    decide) hhere hall (by decide)
  rw [hfault] at hsome
  exact absurd hsome (by simp)

end Command

end MuseKv
