import MuseKv.Command.Equiv.Shown
import MuseKv.Command.Replay

/-!
# A command leaves the same entry when it is executed again

On an entry without levels and without a lifetime, a write asks neither its authority nor the time
before it acts.  So a second execution, at another time and with authority `0`, takes the same action
(`keyResult_again`), unless the action is to give the entry a level of the authority (`Raises`).  There
is one lemma for each handler; the entry that is left is again without levels
(`keyResult_unguarded`).
-/

namespace MuseKv

open Kvstore

/-- Nothing, or an entry that every authority may use at any time. -/
def Unguarded (node : Option Kv) : Prop := ∀ n, node = some n → n.Unguarded

theorem Kv.Unguarded.isExpired {n : Kv} (h : n.Unguarded) (t : Int) : n.isExpired t = false := by
  rw [Kv.isExpired, h.finished, h.ttl]
  rfl

namespace Command

/-- The same call, with authority `0` and at another time. -/
abbrev Call.again (c : Call) (t : Int) : Call := { c with auth := 0, currTime := t }

/-- A second result with the action of the first, unless the first reply is marked. -/
def Again (r r' : Result) : Prop :=
  ∀ msg a, r = some (msg, a) → ¬ Marked msg → ∃ msg', r' = some (msg', a) ∧ ¬ Marked msg'

theorem Again.of_eq {r r' : Result} (h : r = r') : Again r r' := fun msg _ hr hm =>
  ⟨msg, h ▸ hr, hm⟩

/-- Two replies that leave the entry alone. -/
theorem Again.reply {msg msg' : Str} (h : ¬ Marked msg') : Again (reply msg) (reply msg') := by
  intro m a hr _
  obtain ⟨-, rfl⟩ := Prod.mk.inj (Option.some.inj hr)
  exact ⟨msg', rfl, h⟩

theorem not_marked_notEnoughPermission : ¬ Marked notEnoughPermission :=
  not_marked (by decide) (by decide)

variable {c : Call} {node : Option Kv} {t : Int}

/-! ### The opening tests -/

theorem permitted_of_zero {level : UInt8} (h : level = 0) (body : Result) :
    permitted c level body = body := by
  rw [permitted_of_le]
  rw [h]
  exact UInt8.zero_le

theorem permitted_again {level : UInt8} (h : level = 0) (body : Result) :
    permitted c level body = permitted (c.again t) level body := by
  rw [permitted_of_zero h, permitted_of_zero h]

theorem overwritable_eq (hnode : Unguarded node) (body : Result) :
    overwritable c node body = body := by
  cases node with
  | none => rfl
  | some n => exact permitted_of_zero (hnode n rfl).authw body

theorem live_again (hnode : Unguarded node) {body body' : Kv → Result}
    (h : ∀ n, n.Unguarded → body n = body' n) :
    live c node body = live (c.again t) node body' := by
  cases node with
  | none => rfl
  | some n =>
    rw [live, live, (hnode n rfl).isExpired, (hnode n rfl).isExpired]
    exact h n (hnode n rfl)

theorem onList_again (hnode : Unguarded node) {body : Kv → List Str → Result} :
    onList c Kv.authw node body = onList (c.again t) Kv.authw node body := by
  refine live_again hnode fun n hn => ?_
  cases n.v with
  | list l => exact permitted_again hn.authw _
  | _ => rfl

theorem onSet_again (hnode : Unguarded node) {body : Kv → Hashset → Result} :
    onSet c Kv.authw node body = onSet (c.again t) Kv.authw node body := by
  refine live_again hnode fun n hn => ?_
  cases n.v with
  | set s => exact permitted_again hn.authw _
  | _ => rfl

theorem onHashmap_again (hnode : Unguarded node) {body : Kv → Hashmap → Result} :
    onHashmap c Kv.authw node body = onHashmap (c.again t) Kv.authw node body := by
  refine live_again hnode fun n hn => ?_
  cases n.v with
  | hashmap m => exact permitted_again hn.authw _
  | _ => rfl

/-! ### The handlers -/

/-- The words of a call, behind a command. -/
abbrev Call.words (c : Call) (word : Str) : List Str := word :: c.k :: c.args

/-- A second execution of a command leaves what the first one left. -/
def Repeats (word : Str) (f : KeyHandler) : Prop :=
  ∀ (c : Call) (node : Option Kv) (t : Int), Unguarded node →
    ¬ Raises (c.words word) c.auth node → Again (f c node) (f (c.again t) node)

theorem auth_eq_zero {ws : List Str} (h : ¬ Raises ws c.auth node)
    (hlevel : TakesLevel c.auth node ws) : c.auth = 0 := by
  by_contra hne
  exact h ⟨UInt8.pos_iff_ne_zero.mpr hne, hlevel⟩

theorem del_repeats : Repeats (lit "del") del := by
  intro c node t hnode _
  refine .of_eq ?_
  cases node with
  | none => rfl
  | some n => exact permitted_again (hnode n rfl).authw _

theorem lpush_repeats : Repeats (lit "lpush") lpush :=
  fun _ _ _ hnode _ => .of_eq (onList_again hnode)

theorem rpush_repeats : Repeats (lit "rpush") rpush :=
  fun _ _ _ hnode _ => .of_eq (onList_again hnode)

theorem popList_repeats {word : Str} (pop : List Str → Str × List Str) :
    Repeats word (popList pop) :=
  fun _ _ _ hnode _ => .of_eq (onList_again hnode)

theorem lset_repeats : Repeats (lit "lset") lset :=
  fun _ _ _ hnode _ => .of_eq (onList_again hnode)

theorem lerase_repeats : Repeats (lit "lerase") lerase :=
  fun _ _ _ hnode _ => .of_eq (onList_again hnode)

theorem spush_repeats : Repeats (lit "spush") spush :=
  fun _ _ _ hnode _ => .of_eq (onSet_again hnode)

theorem spop_repeats : Repeats (lit "spop") spop :=
  fun _ _ _ hnode _ => .of_eq (onSet_again hnode)

theorem serase_repeats : Repeats (lit "serase") serase :=
  fun _ _ _ hnode _ => .of_eq (onSet_again hnode)

theorem hpush_repeats : Repeats (lit "hpush") hpush :=
  fun _ _ _ hnode _ => .of_eq (onHashmap_again hnode)

theorem herase_repeats : Repeats (lit "herase") herase :=
  fun _ _ _ hnode _ => .of_eq (onHashmap_again hnode)

/-- Without arguments there is nothing to split, which is a fault. -/
theorem splitData_joined_nil {c : Call} (h : c.args = []) : Value.splitData c.joined = none := by
  rw [Call.joined, Call.arg, h]
  rfl

theorem lmake_repeats : Repeats (lit "lmake") lmake := by
  intro c node t hnode hraise
  rw [lmake, lmake, overwritable_eq hnode, overwritable_eq hnode]
  by_cases hargs : c.args = []
  · rw [Value.dataEncode, Value.dataEncode, splitData_joined_nil hargs,
      splitData_joined_nil (c := c.again t) hargs]
    exact .of_eq rfl
  · rw [auth_eq_zero hraise (.lmake hargs)]
    exact .of_eq rfl

theorem smake_repeats : Repeats (lit "smake") smake := by
  intro c node t hnode hraise
  rw [smake, smake, overwritable_eq hnode, overwritable_eq hnode]
  by_cases hargs : c.args = []
  · rw [splitData_joined_nil hargs,
      splitData_joined_nil (c := c.again t) hargs]
    exact .of_eq rfl
  · rw [auth_eq_zero hraise (.smake hargs)]
    exact .of_eq rfl

theorem hmake_repeats : Repeats (lit "hmake") hmake := by
  intro c node t hnode hraise
  rw [hmake, hmake]
  by_cases hodd : (c.args.length + 2) % 2 ≠ 0
  · rw [if_pos hodd, if_pos hodd]
    exact .of_eq rfl
  · rw [if_neg hodd, if_neg hodd, overwritable_eq hnode, overwritable_eq hnode]
    by_cases hargs : c.args = []
    · rw [Value.dataEncode, Value.dataEncode, splitData_joined_nil hargs,
        splitData_joined_nil (c := c.again t) hargs]
      exact .of_eq rfl
    · rw [auth_eq_zero hraise (.hmake hargs (by omega))]
      exact .of_eq rfl

theorem withinAuth_zero {x : Int} (body : Result) :
    withinAuth (c.again t) x body = if 0 < x then reply notEnoughPermission else body := rfl

/-- A level above the authority is refused again. -/
theorem withinAuth_again {x : Int} {body body' : Result}
    (h : x ≤ c.auth.toNat → Again body (withinAuth (c.again t) x body')) :
    Again (withinAuth c x body) (withinAuth (c.again t) x body') := by
  rw [withinAuth]
  split_ifs with hlt
  · rw [withinAuth_zero, if_pos (by omega)]
    exact .reply not_marked_notEnoughPermission
  · exact h (not_lt.mp hlt)

/-- An argument that must be an integer. -/
theorem withInt_again {str bad : Str} {body body' : Int → Result} (hbad : ¬ Marked bad)
    (h : ∀ x, strtoint str = some (true, x) → Again (body x) (body' x)) :
    Again (withInt str bad body) (withInt str bad body') := by
  rw [withInt, withInt]
  rcases hstr : strtoint str with _ | ⟨_ | _, x⟩
  · exact .of_eq rfl
  · exact .reply hbad
  · exact h x hstr

/-- A negative level is refused again. -/
theorem negative_again {x : Int} {body body' : Result} (h : 0 ≤ x → Again body body') :
    Again (if x < 0 then reply invalidAuth else body) (if x < 0 then reply invalidAuth else body') := by
  split_ifs with hx
  · exact .of_eq rfl
  · exact h (not_lt.mp hx)

/-- Two levels that are not negative. -/
theorem levels_again {r w : Int} {v : Value} (h₀ : 0 ≤ r) (h₀' : 0 ≤ w)
    (h : r ≤ w → 0 < w → w ≤ c.auth.toNat → c.auth = 0) :
    Again
      (withinAuth c r <| withinAuth c w <|
        if r > w then reply invalidAuth else some (confirmMsg, .set v (toU8 r) (toU8 w)))
      (withinAuth (c.again t) r <| withinAuth (c.again t) w <|
        if r > w then reply invalidAuth else some (confirmMsg, .set v (toU8 r) (toU8 w))) := by
  refine withinAuth_again fun h₁ => ?_
  rw [withinAuth_zero, withinAuth]
  by_cases hr : 0 < r
  · -- the second execution refuses, so the first one must not act
    rw [if_pos hr]
    split_ifs with hlt hgt
    · exact .reply not_marked_notEnoughPermission
    · exact .reply not_marked_notEnoughPermission
    · -- the levels are ordered and within the authority
      have hauth := h (not_lt.mp hgt) (by omega) (not_lt.mp hlt)
      rw [hauth] at h₁
      exact absurd h₁ (not_le.mpr hr)
  · obtain rfl : r = 0 := by omega
    rw [if_neg hr, withinAuth_zero]
    -- only the level for writing is positive
    by_cases hw : 0 < w
    · rw [if_pos hw]
      rw [if_neg (not_lt.mpr hw.le)]
      split_ifs with hlt
      · exact .reply not_marked_notEnoughPermission
      · have hauth := h hw.le hw (not_lt.mp hlt)
        rw [hauth] at hlt
        exact absurd hw hlt
    · obtain rfl : w = 0 := by omega
      rw [if_neg (by omega), if_neg hw]
      exact .of_eq rfl

theorem make_repeats : Repeats (lit "make") make := by
  rintro ⟨k, args, auth, t₀⟩ node t hnode hraise
  rw [make, make, overwritable_eq hnode, overwritable_eq hnode]
  match args with
  | [] => exact .of_eq rfl
  | [data] =>
    obtain rfl : auth = 0 := auth_eq_zero hraise .make
    exact .of_eq rfl
  | [data, arg3] =>
    refine withInt_again (not_marked (by decide) (by decide)) fun x hx => negative_again fun h₀ => ?_
    refine withinAuth_again fun h₁ => ?_
    obtain rfl : auth = 0 := auth_eq_zero hraise (.makeAuthr hx h₀ h₁)
    rw [withinAuth, if_neg (not_lt.mpr h₁)]
    exact .of_eq rfl
  | [data, arg3, arg4] =>
    dsimp only
    rcases hr : strtoint arg3 with _ | ⟨b₁, r⟩
    · exact .of_eq rfl
    rcases hw : strtoint arg4 with _ | ⟨b₂, w⟩
    · exact .of_eq rfl
    dsimp only
    -- the levels are refused in the order in which they are tested
    by_cases hbad₁ : (!b₁ || r < 0) = true
    · simp only [if_pos hbad₁]
      exact .of_eq rfl
    by_cases hbad₂ : (!b₂ || w < 0) = true
    · simp only [if_neg hbad₁, if_pos hbad₂]
      exact .of_eq rfl
    simp only [if_neg hbad₁, if_neg hbad₂]
    obtain ⟨rfl, h₀⟩ : b₁ = true ∧ 0 ≤ r := by simpa using hbad₁
    obtain ⟨rfl, h₀'⟩ : b₂ = true ∧ 0 ≤ w := by simpa using hbad₂
    exact levels_again h₀ h₀' fun h₁ h₂ h₃ =>
      auth_eq_zero hraise (.makeLevels hr hw h₀ h₁ h₂ h₃)
  | _ :: _ :: _ :: _ :: _ => exact .of_eq rfl

/-- `authr` and `authw`. -/
theorem setLevel_repeats {word : Str} (hword : word = lit "authr" ∨ word = lit "authw")
    (mutator : Kv → UInt8 → Kv) : Repeats word (setLevel mutator) := by
  rintro ⟨k, args, auth, t₀⟩ node t hnode hraise
  cases node with
  | none => exact .of_eq rfl
  | some n =>
    refine withInt_again (not_marked (by decide) (by decide)) fun x hx => negative_again fun h₀ => ?_
    refine withinAuth_again fun h₁ => ?_
    rw [permitted_of_zero (hnode n rfl).authw, withinAuth_zero]
    split_ifs with hpos
    · -- the level shows in the entry, so it must be one that the authority does not reach
      match args with
      | [] => exact absurd hx (by simp [Call.arg, strtoint])
      | arg :: args =>
        obtain rfl : auth = 0 := auth_eq_zero hraise (.setLevel hword rfl hx hpos h₁)
        exact absurd h₁ (not_le.mpr hpos)
    · rw [permitted_of_zero (hnode n rfl).authw]
      exact .of_eq rfl

/-! ### A command -/

/-- What holds of each handler of a write holds of the handler that is found. -/
theorem writeWords_cases {P : Str → KeyHandler → Prop} (pmake : P (lit "make") make)
    (pdel : P (lit "del") del) (plmake : P (lit "lmake") lmake) (plpush : P (lit "lpush") lpush)
    (prpush : P (lit "rpush") rpush) (plpop : P (lit "lpop") lpop) (prpop : P (lit "rpop") rpop)
    (plset : P (lit "lset") lset) (plerase : P (lit "lerase") lerase)
    (psmake : P (lit "smake") smake) (pspush : P (lit "spush") spush) (pspop : P (lit "spop") spop)
    (pserase : P (lit "serase") serase) (phmake : P (lit "hmake") hmake)
    (phpush : P (lit "hpush") hpush) (pherase : P (lit "herase") herase)
    (pauthr : P (lit "authr") authr) (pauthw : P (lit "authw") authw)
    {word : Str} {n : ℕ} {handler : Handler} (hword : word ∈ writeWords)
    (h : lookup dispatch word n = some handler) : ∃ f, handler = .keyed f ∧ P word f := by
  have hall : ∀ row ∈ dispatch, row.1 ∈ writeWords → ∃ f, row.2.2 = .keyed f ∧ P row.1 f := by
    simp only [dispatch, List.forall_mem_cons, List.not_mem_nil, IsEmpty.forall_iff, implies_true,
      and_true]
    have hno : ∀ {word : Str} {Q : Prop}, word ∉ writeWords → word ∈ writeWords → Q :=
      fun h h' => absurd h' h
    exact ⟨hno (by decide), fun _ => ⟨_, rfl, pmake⟩, fun _ => ⟨_, rfl, pmake⟩,
      fun _ => ⟨_, rfl, pmake⟩, fun _ => ⟨_, rfl, pdel⟩, fun _ => ⟨_, rfl, plmake⟩,
      fun _ => ⟨_, rfl, plpush⟩, fun _ => ⟨_, rfl, prpush⟩, fun _ => ⟨_, rfl, plpop⟩,
      fun _ => ⟨_, rfl, prpop⟩, hno (by decide), fun _ => ⟨_, rfl, plset⟩,
      fun _ => ⟨_, rfl, plerase⟩, fun _ => ⟨_, rfl, psmake⟩, fun _ => ⟨_, rfl, pspush⟩,
      fun _ => ⟨_, rfl, pspop⟩, fun _ => ⟨_, rfl, pserase⟩, hno (by decide),
      fun _ => ⟨_, rfl, phmake⟩, fun _ => ⟨_, rfl, phpush⟩, hno (by decide), hno (by decide),
      hno (by decide), fun _ => ⟨_, rfl, pherase⟩, hno (by decide), hno (by decide),
      fun _ => ⟨_, rfl, pauthr⟩, fun _ => ⟨_, rfl, pauthw⟩, hno (by decide), hno (by decide),
      hno (by decide), hno (by decide), hno (by decide)⟩
  obtain ⟨arity, hmem, -⟩ := lookup_eq_some h
  exact hall _ hmem hword

/-- The handlers of the commands that are sent on. -/
theorem lookup_writeWords {word : Str} {n : ℕ} {handler : Handler} (hword : word ∈ writeWords)
    (h : lookup dispatch word n = some handler) : ∃ f, handler = .keyed f ∧ Repeats word f :=
  writeWords_cases make_repeats del_repeats lmake_repeats lpush_repeats rpush_repeats
    (popList_repeats _) (popList_repeats _) lset_repeats lerase_repeats smake_repeats spush_repeats
    spop_repeats serase_repeats hmake_repeats hpush_repeats herase_repeats
    (setLevel_repeats (Or.inl rfl) _) (setLevel_repeats (Or.inr rfl) _) hword h

/-- The words of a command that is sent on, if there are any. -/
def Sendable (ws : List Str) : Prop := ∀ word ∈ ws.head?, word ∈ writeWords

variable {ws : List Str} {auth : UInt8} {u : Int}

/-- **A second execution takes the same action** on an entry without levels, unless the first one
gave it a level. -/
theorem keyResult_again (hws : Sendable ws) (hnode : Unguarded node) (hraise : ¬ Raises ws auth node) :
    Again (keyResult ws auth t node) (keyResult ws 0 u node) := by
  match ws with
  | [] => exact .of_eq rfl
  | [_] => exact .of_eq rfl
  | word :: k :: args =>
    rw [keyResult, keyResult]
    cases hlook : lookup dispatch word (args.length + 2) with
    | none => exact .of_eq rfl
    | some handler =>
      obtain ⟨f, rfl, hf⟩ := lookup_writeWords (hws word rfl) hlook
      exact hf ⟨k, args, auth, t⟩ node u hnode hraise

/-- The action of a command is allowed. -/
theorem keyResult_allowed {msg : Str} {a : KeyAction}
    (h : keyResult ws auth t node = some (msg, a)) :
    ∃ k args, Allowed ⟨k, args, auth, t⟩ node a := by
  match ws with
  | [] =>
    obtain ⟨-, rfl⟩ := Prod.mk.inj (Option.some.inj h)
    exact ⟨[], [], .keep⟩
  | [_] =>
    obtain ⟨-, rfl⟩ := Prod.mk.inj (Option.some.inj h)
    exact ⟨[], [], .keep⟩
  | word :: k :: args =>
    rw [keyResult] at h
    split at h
    next f hlook => exact ⟨k, args, handler_sound hlook _ _ _ _ h⟩
    next =>
      obtain ⟨-, rfl⟩ := Prod.mk.inj (Option.some.inj h)
      exact ⟨k, args, .keep⟩

/-- What authority `0` may write over an entry without levels: another one, or a lifetime. -/
theorem Allowed.write_cases {c : Call} {n m : Kv} (h : Allowed c (some n) (.write m))
    (hauth : c.auth = 0) (hn : n.Unguarded) :
    m.Unguarded ∨ ∃ x, m = n.setTtl x c.currTime := by
  generalize ha : KeyAction.write m = a at h
  cases h with
  | keep => cases ha
  | expired => cases ha
  | del => cases ha
  | set => cases ha
  | same =>
    cases ha
    exact Or.inl hn
  | content =>
    cases ha
    exact Or.inl ⟨hn.1, hn.2, hn.3, hn.4⟩
  | ttl =>
    cases ha
    exact Or.inr ⟨_, rfl⟩
  | @authr _ x _ hx =>
    cases ha
    obtain rfl := UInt8.le_zero_iff.mp (hauth ▸ hx)
    refine Or.inl ⟨rfl, ?_, hn.3, hn.4⟩
    rw [Kv.setAuthr, hn.authw]
    rfl
  | @authw _ x _ hx =>
    cases ha
    obtain rfl := UInt8.le_zero_iff.mp (hauth ▸ hx)
    refine Or.inl ⟨?_, rfl, hn.3, hn.4⟩
    rw [Kv.setAuthw, hn.authr]
    rfl

/-- **An action that is allowed to authority `0` at two times** sets no level and no lifetime. -/
theorem Allowed.unguarded {c c' : Call} {a : KeyAction} (h : Allowed c node a)
    (h' : Allowed c' node a) (hauth : c.auth = 0) (hauth' : c'.auth = 0)
    (htime : c.currTime ≠ c'.currTime) (hnode : Unguarded node) : Unguarded (a.run node) := by
  intro m hm
  cases a with
  | keep => exact hnode m hm
  | del => exact absurd hm (by simp [KeyAction.run])
  | set v r w =>
    obtain ⟨hrw, hw⟩ := h.set_levels
    obtain rfl := UInt8.le_zero_iff.mp (hauth ▸ hw)
    obtain rfl := UInt8.le_zero_iff.mp hrw
    obtain rfl := Option.some.inj hm
    cases node with
    | none => exact ⟨rfl, rfl, rfl, rfl⟩
    | some n =>
      have hn := hnode n rfl
      exact ⟨(n.overwrite_levels v (UInt8.le_refl 0)).1, rfl, hn.ttl, hn.finished⟩
  | write n' =>
    cases node with
    | none => exact absurd hm (by simp [KeyAction.run])
    | some n =>
      obtain rfl := Option.some.inj hm
      rcases h.write_cases hauth (hnode n rfl) with hdone | ⟨x, hx⟩
      · exact hdone
      · rcases h'.write_cases hauth' (hnode n rfl) with hdone | ⟨y, hy⟩
        · exact hdone
        · exact absurd (congrArg Kv.timer (hx.symm.trans hy)) htime

/-- **A command leaves an entry without levels** when it runs with authority `0`. -/
theorem keyResult_unguarded {msg : Str} {a : KeyAction} (hws : Sendable ws) (hnode : Unguarded node)
    (h : keyResult ws 0 t node = some (msg, a)) (hmsg : ¬ Marked msg) : Unguarded (a.run node) := by
  have hraise : ¬ Raises ws 0 node := fun h => absurd h.1 (by decide)
  obtain ⟨msg', h', -⟩ := keyResult_again (u := t + 1) hws hnode hraise msg a h hmsg
  obtain ⟨k, args, hall⟩ := keyResult_allowed h
  obtain ⟨k', args', hall'⟩ := keyResult_allowed h'
  exact hall.unguarded hall' rfl rfl (by simp) hnode

/-- **A write is one action** under the key that it names. -/
theorem executeWords_write {w : World} (hws : Sendable ws) (hhere : refused w.h ws = false) :
    executeWords ws auth t w = (keyResult ws auth t (w.h.findNode (keyOf ws))).bind fun r =>
      (w.h.apply (keyOf ws) r.2).map fun h => (r.1, { w with h := h }) := by
  have hctl : ∀ word ∈ writeWords, word ∉ controlWords := by decide
  match ws with
  | [] => rfl
  | [word] =>
    rw [executeWords, if_neg (hctl word (hws word rfl)), if_neg (by simp)]
    cases hlook : lookup dispatch word 1 with
    | none => rfl
    | some handler =>
      obtain ⟨f, rfl, -⟩ := lookup_writeWords (hws word rfl) hlook
      have hne : ([] : List Str) ≠ [] := args_ne_nil_of_keyed hlook
      exact absurd rfl hne
  | word :: k :: args =>
    rw [executeWords, if_neg (hctl word (hws word rfl)), if_neg (by simpa [refused] using hhere),
      List.length_cons, keyResult]
    cases hlook : lookup dispatch word (args.length + 2) with
    | none => rfl
    | some handler =>
      obtain ⟨f, rfl, -⟩ := lookup_writeWords (hws word rfl) hlook
      rfl

/-- The entry that a command leaves under its key when it runs with authority `0`. -/
def effect (ws : List Str) (node : Option Kv) : Option Kv :=
  ((keyResult ws 0 0 node).map fun r => r.2.run node).getD node

theorem effect_eq {msg : Str} {a : KeyAction} (h : keyResult ws 0 0 node = some (msg, a)) :
    effect ws node = a.run node := by
  rw [effect, h]
  rfl

/-- A command that names no key is answered with a fixed text. -/
theorem keyResult_of_length (h : ws.length < 2) : keyResult ws auth t node = reply invalidCommand := by
  match ws, h with
  | [], _ => rfl
  | [_], _ => rfl

/-- **What a write leaves**: the entry of its action, and all other entries as they were. -/
theorem findNode_of_write {w w' : World} {msg : Str} (hws : Sendable ws)
    (hhere : refused w.h ws = false) (h : executeWords ws auth t w = some (msg, w')) :
    ∃ a, keyResult ws auth t (w.h.findNode (keyOf ws)) = some (msg, a) ∧
      (∀ k, w'.h.findNode k =
        if k = keyOf ws then a.run (w.h.findNode (keyOf ws)) else w.h.findNode k) ∧
      w'.h.startNum = w.h.startNum ∧ w'.h.endNum = w.h.endNum := by
  rw [executeWords_write hws hhere] at h
  obtain ⟨r, hr, h⟩ := Option.bind_eq_some_iff.mp h
  obtain ⟨h', hh', heq⟩ := Option.map_eq_some_iff.mp h
  obtain ⟨rfl, rfl⟩ := Prod.mk.inj heq
  exact ⟨r.2, hr, Hash.findNode_apply hh', (Hash.apply_bounds hh').2⟩

end Command

end MuseKv
