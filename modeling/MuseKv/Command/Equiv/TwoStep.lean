import MuseKv.Command.Equiv.Answers
import MuseKv.Command.Equiv.Memory
import MuseKv.Command.Equiv.Replay

/-!
# The two steps of a command

A handler of a command that is taken apart creates an entry, deletes one, or changes a value (`Shape`),
and its tests are the same on every entry.  So what its second step needs (`Suits`) and what stays true
of the nodes that it names (`Pending`) tell what a lookup finds (`look_iff`), and the second step right
behind the lookup is what `execute` does (`mutate_look`).
-/

namespace MuseKv

open General Kvstore Command

/-! ### The changes -/

namespace Edit

/-- The type of value that a change is made to. -/
def dtype : Edit → Dtype
  | lpush _ | rpush _ | lpop | rpop => .list
  | spush _ | spop => .set
  | hpush _ _ => .hashmap

variable {e : Edit} {v v' : Value} {msg : Str}

theorem isSome_run : (e.run v).isSome = true ↔ v.isUnset = false ∧ v.dataDtype = e.dtype := by
  cases e <;> cases v <;> simp [run, dtype, Value.isUnset, Value.dataDtype]

/-- A change keeps the type. -/
theorem run_keeps (h : e.run v = some (msg, v')) : v'.isUnset = false ∧ v'.dataDtype = e.dtype := by
  have hv : (e.run v).map (fun x => (x.2.isUnset, x.2.dataDtype))
      = (e.run v).map fun _ => (false, e.dtype) := by
    cases e <;> cases v <;> rfl
  rw [h] at hv
  exact Prod.mk.inj (Option.some.inj hv)

theorem run_unset (e : Edit) : e.run .unset = none := by
  cases e with
  | lpush | rpush | lpop | rpop | spush | spop | hpush => rfl

end Edit

namespace Command

/-! ### The handlers -/

/-- The handler of a command that changes a value. -/
def edited (e : Edit) (c : Call) (node : Option Kv) : Result :=
  live c node fun n =>
    match e.run n.v with
    | none => reply invalidType
    | some r => permitted c n.authw <|
      if e.applies n.v then some (r.1, .write (n.setV r.2)) else reply emptyList

/-- A handler creates or replaces an entry, or deletes it, or changes its value. -/
inductive Shape (word : Str) (f : KeyHandler) : Prop
  | creates (R : Call → Result) (hword : word ≠ lit "del")
      (hf : ∀ c node, f c node = overwritable c node (R c))
      (hR : ∀ c, Answers (fun _ a => a = .keep ∨ ∃ v r w, a = .set v r w) (R c))
  | deletes (hword : word = lit "del") (hf : f = del)
  | edits (edit : List Str → Edit) (hword : word ≠ lit "del")
      (hedit : edits.lookup word = some edit) (hf : ∀ c node, f c node = edited (edit c.args) c node)

theorem make_shape : Shape (lit "make") make := by
  refine .creates _ (by decide) (fun c node => rfl) fun c => ?_
  have hno : ∀ msg : Str, (fun (_ : Str) a => a = .keep ∨ ∃ v r w, a = KeyAction.set v r w) msg .keep :=
    fun _ => Or.inl rfl
  rcases c.args with _ | ⟨data, _ | ⟨arg3, _ | ⟨arg4, _ | ⟨arg5, args⟩⟩⟩⟩
  · exact .fault
  · exact .act (Or.inr ⟨_, _, _, rfl⟩)
  · refine .withInt (Or.inl rfl) fun x _ => .ite (fun _ => .act (Or.inl rfl)) fun _ => ?_
    exact .withinAuth (Or.inl rfl) fun _ => .act (Or.inr ⟨_, _, _, rfl⟩)
  · dsimp only
    rcases strtoint arg3 with _ | ⟨b₁, r⟩
    · exact .fault
    rcases strtoint arg4 with _ | ⟨b₂, w⟩
    · exact .fault
    refine .ite (fun _ => .act (Or.inl rfl)) fun _ => .ite (fun _ => .act (Or.inl rfl)) fun _ => ?_
    refine .withinAuth (Or.inl rfl) fun _ => .withinAuth (Or.inl rfl) fun _ => ?_
    exact .ite (fun _ => .act (Or.inl rfl)) fun _ => .act (Or.inr ⟨_, _, _, rfl⟩)
  · exact .fault

theorem lmake_shape : Shape (lit "lmake") lmake :=
  .creates _ (by decide) (fun _ _ => rfl) fun _ => .map fun _ _ => Or.inr ⟨_, _, _, rfl⟩

variable (c : Call) (node : Option Kv)

theorem lpush_edited : lpush c node = edited (.lpush c.args) c node := by
  refine congrArg (live c node) (funext fun n => ?_)
  cases n.v with
  | list | string | set | hashmap | unset => rfl

theorem rpush_edited : rpush c node = edited (.rpush c.args) c node := by
  refine congrArg (live c node) (funext fun n => ?_)
  cases n.v with
  | list | string | set | hashmap | unset => rfl

theorem spush_edited : spush c node = edited (.spush c.args) c node := by
  refine congrArg (live c node) (funext fun n => ?_)
  cases n.v with
  | list | string | set | hashmap | unset => rfl

theorem hpush_edited : hpush c node = edited (.hpush (c.arg 0) (c.arg 1)) c node := by
  refine congrArg (live c node) (funext fun n => ?_)
  cases n.v with
  | list | string | set | hashmap | unset => rfl

/-- The test of a pop, from its refusal. -/
theorem ite_applies {p : Prop} [Decidable p] {b : Bool} (h : b = true ↔ ¬ p) (x y : Result) :
    (if p then x else y) = if b = true then y else x := by
  by_cases hp : p
  · rw [if_pos hp, if_neg fun hb => h.mp hb hp]
  · rw [if_neg hp, if_pos (h.mpr hp)]

theorem lpop_edited : lpop c node = edited .lpop c node := by
  refine congrArg (live c node) (funext fun n => ?_)
  cases n.v with
  | list l => exact congrArg (permitted c n.authw) (ite_applies (decide_eq_true_iff (p := l ≠ [])) _ _)
  | string | set | hashmap | unset => rfl

theorem rpop_edited : rpop c node = edited .rpop c node := by
  refine congrArg (live c node) (funext fun n => ?_)
  cases n.v with
  | list l => exact congrArg (permitted c n.authw) (ite_applies (decide_eq_true_iff (p := l ≠ [])) _ _)
  | string | set | hashmap | unset => rfl

theorem spop_edited : spop c node = edited .spop c node := by
  refine congrArg (live c node) (funext fun n => ?_)
  cases n.v with
  | set s =>
    refine congrArg (permitted c n.authw) (ite_applies ?_ _ _)
    change (!s.isEmpty) = true ↔ _
    rw [Bool.not_eq_true', Bool.not_eq_true]
  | string | list | hashmap | unset => rfl

/-- **The handlers of the commands that are taken apart**. -/
theorem shape_of_lookup {word : Str} {n : ℕ} {handler : Handler} (hword : word ∈ twoStepWords)
    (h : lookup dispatch word n = some handler) : ∃ f, handler = .keyed f ∧ Shape word f := by
  have hno : ∀ {word : Str} {f : KeyHandler}, word ∉ twoStepWords →
      word ∈ twoStepWords → Shape word f := fun h h' => absurd h' h
  have hmem : ∀ word ∈ twoStepWords, word ∈ writeWords := by decide
  obtain ⟨f, rfl, hf⟩ := writeWords_cases (P := fun word f => word ∈ twoStepWords → Shape word f)
    (fun _ => make_shape) (fun _ => .deletes rfl rfl) (fun _ => lmake_shape)
    (fun _ => .edits .lpush (by decide) rfl lpush_edited)
    (fun _ => .edits .rpush (by decide) rfl rpush_edited)
    (fun _ => .edits (fun _ => .lpop) (by decide) rfl lpop_edited)
    (fun _ => .edits (fun _ => .rpop) (by decide) rfl rpop_edited)
    (hno (by decide)) (hno (by decide)) (hno (by decide))
    (fun _ => .edits .spush (by decide) rfl spush_edited)
    (fun _ => .edits (fun _ => .spop) (by decide) rfl spop_edited)
    (hno (by decide)) (hno (by decide))
    (fun _ => .edits (fun args => .hpush (args.getD 0 []) (args.getD 1 [])) (by decide) rfl hpush_edited)
    (hno (by decide)) (hno (by decide)) (hno (by decide)) (hmem word hword) h
  exact ⟨f, rfl, hf hword⟩

/-! ### What a command answers -/


variable {c : Call} {node : Option Kv} {msg : Str} {a : KeyAction}

theorem overwritable_eq_some {body : Result} (ha : a ≠ .keep)
    (h : overwritable c node body = some (msg, a)) :
    (∀ n, node = some n → n.authw ≤ c.auth) ∧ body = some (msg, a) := by
  cases node with
  | none => exact ⟨by simp, h⟩
  | some n =>
    rw [overwritable, permitted] at h
    split_ifs at h with hlt
    · exact absurd (Prod.mk.inj (Option.some.inj h)).2.symm ha
    · refine ⟨?_, h⟩
      rintro n' hn'
      rw [← Option.some.inj hn']
      exact UInt8.not_lt.mp hlt

theorem del_eq_some (ha : a ≠ .keep) (h : del c node = some (msg, a)) :
    ∃ n, node = some n ∧ n.authw ≤ c.auth ∧ msg = confirmMsg ∧ a = .del := by
  cases node with
  | none => exact absurd (Prod.mk.inj (Option.some.inj h)).2.symm ha
  | some n =>
    rw [del, present, permitted] at h
    split_ifs at h with hlt
    · exact absurd (Prod.mk.inj (Option.some.inj h)).2.symm ha
    · obtain ⟨rfl, rfl⟩ := Prod.mk.inj (Option.some.inj h)
      exact ⟨n, rfl, UInt8.not_lt.mp hlt, rfl, rfl⟩

theorem edited_expired {e : Edit} {n : Kv} (hexp : n.isExpired c.currTime = true) :
    edited e c (some n) = some (noSuchKey c.k, .del) := by
  rw [edited, live_of_expired hexp]

theorem edited_live {e : Edit} {n : Kv} {v : Value} (hexp : n.isExpired c.currTime = false)
    (hauth : n.authw ≤ c.auth) (hrun : e.run n.v = some (msg, v)) (happ : e.applies n.v = true) :
    edited e c (some n) = some (msg, .write (n.setV v)) := by
  rw [edited, live_of_not_expired hexp, hrun]
  dsimp only
  rw [permitted_of_le hauth, if_pos happ]

theorem edited_eq_some {e : Edit} (ha : a ≠ .keep) (h : edited e c node = some (msg, a)) :
    ∃ n, node = some n ∧
      ((n.isExpired c.currTime = true ∧ msg = noSuchKey c.k ∧ a = .del) ∨
        (n.isExpired c.currTime = false ∧ n.authw ≤ c.auth ∧ e.applies n.v = true ∧
          ∃ v, e.run n.v = some (msg, v) ∧ a = .write (n.setV v))) := by
  cases node with
  | none => exact absurd (Prod.mk.inj (Option.some.inj h)).2.symm ha
  | some n =>
    refine ⟨n, rfl, ?_⟩
    cases hexp : n.isExpired c.currTime with
    | true =>
      rw [edited_expired hexp] at h
      obtain ⟨rfl, rfl⟩ := Prod.mk.inj (Option.some.inj h)
      exact Or.inl ⟨rfl, rfl, rfl⟩
    | false =>
      right
      rw [edited, live_of_not_expired hexp] at h
      cases hrun : e.run n.v with
      | none =>
        rw [hrun] at h
        exact absurd (Prod.mk.inj (Option.some.inj h)).2.symm ha
      | some r =>
        rw [hrun] at h
        dsimp only at h
        rw [permitted] at h
        split_ifs at h with hlt happ
        · exact absurd (Prod.mk.inj (Option.some.inj h)).2.symm ha
        · obtain ⟨rfl, rfl⟩ := Prod.mk.inj (Option.some.inj h)
          exact ⟨rfl, UInt8.not_lt.mp hlt, happ, r.2, rfl, rfl⟩
        · exact absurd (Prod.mk.inj (Option.some.inj h)).2.symm ha

/-- The words of a command that is taken apart, if there are any. -/
def Apart (r : Request) : Prop := ∀ word ∈ (words r.com).head?, word ∈ twoStepWords

/-- `keyResult` for a command with its authority and its time. -/
abbrev Request.result (r : Request) (node : Option Kv) : Result :=
  keyResult (words r.com) r.auth r.currTime node

variable {r : Request}

/-- A command that does something has a handler. -/
theorem exists_shape (hr : Apart r) (ha : a ≠ .keep) (h : r.result node = some (msg, a)) :
    ∃ word k args f, words r.com = word :: k :: args ∧ Shape word f ∧
      ∀ node, r.result node = f ⟨k, args, r.auth, r.currTime⟩ node := by
  rw [Request.result] at h
  match hws : words r.com with
  | [] =>
    rw [hws] at h
    exact absurd (Prod.mk.inj (Option.some.inj h)).2.symm ha
  | [_] =>
    rw [hws] at h
    exact absurd (Prod.mk.inj (Option.some.inj h)).2.symm ha
  | word :: k :: args =>
    rw [hws, keyResult] at h
    cases hlook : lookup dispatch word (args.length + 2) with
    | none =>
      rw [hlook] at h
      exact absurd (Prod.mk.inj (Option.some.inj h)).2.symm ha
    | some handler =>
      obtain ⟨f, rfl, hf⟩ := shape_of_lookup (hr word (by rw [hws]; rfl)) hlook
      refine ⟨word, k, args, f, rfl, hf, fun node => ?_⟩
      rw [Request.result, hws, keyResult, hlook]

/-- The entries that a command deletes: `del` asks for their level, and the others delete what is
expired. -/
def Deletes (r : Request) (n : Kv) : Prop :=
  if (words r.com).head? = some (lit "del") then n.authw ≤ r.auth else n.isExpired r.currTime = true

/-- What a command answers on every entry that passes its tests, for each second step. -/
def Answered (r : Request) : Mutation → Prop
  | .set _ k v authr authw msg => k = keyOf (words r.com) ∧ v.isUnset = false ∧
      ∀ node, (∀ n, node = some n → n.authw ≤ r.auth) →
        r.result node = some (msg, .set v authr authw)
  | .del _ k msg => k = keyOf (words r.com) ∧
      ∀ n, Deletes r n → r.result (some n) = some (msg, .del)
  | .edit _ _ e => editOf (words r.com) = some e ∧
      ∀ n msg v, n.isExpired r.currTime = false → n.authw ≤ r.auth → e.run n.v = some (msg, v) →
        e.applies n.v = true → r.result (some n) = some (msg, .write (n.setV v))

theorem answered_set {v : Value} {authr authw : UInt8} (hr : Apart r)
    (h : r.result node = some (msg, .set v authr authw)) (p : Option ℕ) :
    Answered r (.set p (keyOf (words r.com)) v authr authw msg) ∧
      ∀ n, node = some n → n.authw ≤ r.auth := by
  have hset : v.isUnset = false := by
    obtain ⟨k, args, hall⟩ := keyResult_allowed h
    cases hall with
    | set _ hv _ _ => exact hv
  obtain ⟨word, k, args, f, hws, hf, hres⟩ := exists_shape hr (by simp) h
  rw [hres] at h
  cases hf with
  | creates R _ hf _ =>
    rw [hf] at h
    obtain ⟨hle, hR⟩ := overwritable_eq_some (by simp) h
    refine ⟨⟨rfl, hset, fun node' hle' => ?_⟩, hle⟩
    rw [hres, hf, overwritable_of_le hle', hR]
  | deletes _ hf =>
    rw [hf] at h
    obtain ⟨n, -, -, -, hno⟩ := del_eq_some (by simp) h
    exact absurd hno (by simp)
  | edits edit _ _ hf =>
    rw [hf] at h
    obtain ⟨n, -, ⟨-, -, hno⟩ | ⟨-, -, -, v', -, hno⟩⟩ := edited_eq_some (by simp) h
    · exact absurd hno (by simp)
    · exact absurd hno (by simp)

theorem answered_del (hr : Apart r) (h : r.result node = some (msg, .del)) (p : ℕ) :
    Answered r (.del p (keyOf (words r.com)) msg) ∧ ∃ n, node = some n ∧ Deletes r n := by
  obtain ⟨word, k, args, f, hws, hf, hres⟩ := exists_shape hr (by simp) h
  have hhead : (words r.com).head? = some word := by
    rw [hws]
    rfl
  rw [hres] at h
  cases hf with
  | creates R _ hf hR =>
    rw [hf] at h
    obtain ⟨-, hRc⟩ := overwritable_eq_some (by simp) h
    rcases hR _ _ _ hRc with hno | ⟨v, a, b, hno⟩
    · exact absurd hno (by simp)
    · exact absurd hno (by simp)
  | deletes hword hf =>
    rw [hf] at h
    obtain ⟨n, rfl, hle, rfl, -⟩ := del_eq_some (by simp) h
    have hdel : ∀ n', Deletes r n' ↔ n'.authw ≤ r.auth := fun n' => by
      rw [Deletes, hhead, if_pos (congrArg some hword)]
    refine ⟨⟨rfl, fun n' hdel' => ?_⟩, n, rfl, (hdel n).mpr hle⟩
    have hle' := (hdel n').mp hdel'
    rw [hres, hf]
    exact if_neg (UInt8.not_lt.mpr hle')
  | edits edit hword _ hf =>
    rw [hf] at h
    obtain ⟨n, rfl, ⟨hexp, rfl, -⟩ | ⟨-, -, -, v', -, hno⟩⟩ := edited_eq_some (by simp) h
    · have hdel : ∀ n', Deletes r n' ↔ n'.isExpired r.currTime = true := fun n' => by
        rw [Deletes, hhead, if_neg fun h => hword (Option.some.inj h)]
      refine ⟨⟨rfl, fun n' hdel' => ?_⟩, n, rfl, (hdel n).mpr hexp⟩
      rw [hres, hf, edited_expired (c := ⟨k, args, r.auth, r.currTime⟩) ((hdel n').mp hdel')]
    · exact absurd hno (by simp)

theorem answered_edit {n' : Kv} (hr : Apart r) (h : r.result node = some (msg, .write n')) (p d : ℕ) :
    ∃ n e v, node = some n ∧ Answered r (.edit p d e) ∧ n.isExpired r.currTime = false ∧
      n.authw ≤ r.auth ∧ e.applies n.v = true ∧ e.run n.v = some (msg, v) ∧ n' = n.setV v := by
  obtain ⟨word, k, args, f, hws, hf, hres⟩ := exists_shape hr (by simp) h
  rw [hres] at h
  cases hf with
  | creates R _ hf hR =>
    rw [hf] at h
    obtain ⟨-, hRc⟩ := overwritable_eq_some (by simp) h
    rcases hR _ _ _ hRc with hno | ⟨v, a, b, hno⟩
    · exact absurd hno (by simp)
    · exact absurd hno (by simp)
  | deletes hword hf =>
    rw [hf] at h
    obtain ⟨n, -, -, -, hno⟩ := del_eq_some (by simp) h
    exact absurd hno (by simp)
  | edits edit hword hedit hf =>
    rw [hf] at h
    obtain ⟨n, rfl, ⟨-, -, hno⟩ | ⟨hexp, hle, happ, v, hrun, hwrite⟩⟩ := edited_eq_some (by simp) h
    · exact absurd hno (by simp)
    · refine ⟨n, edit args, v, rfl, ⟨?_, ?_⟩, hexp, hle, happ, hrun, KeyAction.write.inj hwrite⟩
      · rw [hws, editOf, hedit, Option.map_some]
      · intro n₁ msg₁ v₁ hexp₁ hle₁ hrun₁ happ₁
        rw [hres, hf, edited_live (c := ⟨k, args, r.auth, r.currTime⟩) hexp₁ hle₁ hrun₁ happ₁]

end Command

/-! ### The first step -/

namespace Memory

/-- What stays true of the nodes and of the value that a second step names, while the node is there. -/
def Tracks (m : Memory) (r : Request) : Mutation → Prop
  | .set none _ _ _ _ _ => True
  | .set (some p) k _ _ _ _ => p < m.top ∧ ∀ n, m.node p = some n → n.k = k
  | .del p k _ => p < m.top ∧ ∀ n, m.node p = some n → n.k = k ∧
      ((words r.com).head? ≠ some (lit "del") → (n.kv .unset).isExpired r.currTime = true)
  | .edit p a e => p < m.top ∧ a < m.top ∧
      (∀ q n, m.node q = some n → n.dataAddr = some a → q = p) ∧
      ∀ n, m.node p = some n → n.k = keyOf (words r.com) ∧
        (n.kv .unset).isExpired r.currTime = false ∧ (n.dataAddr = some a → n.authw ≤ r.auth) ∧
        ∃ v, m.data a = some v ∧ (e.run v).isSome = true

/-- A second step that a lookup has led to, in this memory or in an earlier one. -/
structure Pending (m : Memory) (r : Request) (u : Mutation) : Prop where
  here : (words r.com).tail.head?.any m.notHere = false
  answered : Answered r u
  tracks : m.Tracks r u

/-- The address of a change is still that of its node. -/
def Attached (m : Memory) : Mutation → Prop
  | .edit p a _ => ∃ n, m.node p = some n ∧ n.dataAddr = some a
  | _ => True

variable {m m' : Memory} {h : Hash} {r : Request} {u : Mutation}

/-- The result of a command, from the node that is found. -/
theorem look_eq (hm : m.Represents h) (hhere : (words r.com).tail.head?.any m.notHere = false) :
    (m.findNode (keyOf (words r.com)) = none ∧ h.findNode (keyOf (words r.com)) = none ∧
      m.look r = (r.result none).bind (secondStep (words r.com) none)) ∨
    ∃ p n v, m.findNode (keyOf (words r.com)) = some p ∧ m.node p = some n ∧
      m.value n.dataAddr = some v ∧ n.k = keyOf (words r.com) ∧
      h.findNode (keyOf (words r.com)) = some (n.kv v) ∧
      m.look r = (r.result (some (n.kv v))).bind
        (secondStep (words r.com) (some (p, n.dataAddr))) := by
  rw [look, if_neg (by rw [hhere]; exact Bool.false_ne_true)]
  cases hf : m.findNode (keyOf (words r.com)) with
  | none => exact Or.inl ⟨rfl, hm.findNode_eq_none hf, rfl⟩
  | some p =>
    obtain ⟨-, n, v, hn, hv, hk, hfind⟩ := hm.findNode_eq_some hf
    refine Or.inr ⟨p, n, v, rfl, hn, hv, hk, hfind, ?_⟩
    dsimp only
    rw [hn, Option.bind_some, hv, Option.bind_some]

/-- The entry of a node that is there. -/
theorem Represents.entry_of_node (hm : m.Represents h) {p : ℕ} {n : HashNode} {k : Str}
    (hn : m.node p = some n) (hk : n.k = k) : m.findNode k = some p ∧
      ∃ v, m.value n.dataAddr = some v ∧ h.findNode k = some (n.kv v) := by
  have hfind := hm.findNode_of_node hn
  rw [hk] at hfind
  obtain ⟨-, n', v, hn', hv, -, hkv⟩ := hm.findNode_eq_some hfind
  obtain rfl := Option.some.inj (hn'.symm.trans hn)
  exact ⟨hfind, v, hv, hkv⟩

/-- **A lookup that leads to a second step.** -/
theorem pending_of_look (hm : m.Represents h) (hr : Apart r) (hlook : m.look r = some (.waiting u)) :
    m.Pending r u ∧ m.Suits r u ∧ m.Attached u := by
  have hhere : (words r.com).tail.head?.any m.notHere = false := by
    rw [look] at hlook
    split_ifs at hlook with hno
    · exact absurd (Option.some.inj hlook) (by simp)
    · exact Bool.eq_false_of_not_eq_true hno
  rcases look_eq hm hhere with ⟨hf, -, heq⟩ | ⟨p, n, v, hf, hn, hv, hk, -, heq⟩
  · -- without a node, only `set` has a second step
    rw [heq] at hlook
    obtain ⟨⟨msg, a⟩, hres, hsecond⟩ := Option.bind_eq_some_iff.mp hlook
    cases a with
    | keep => exact absurd (Option.some.inj hsecond) (by simp)
    | set v authr authw =>
      obtain rfl := Threads.Phase.waiting.inj (Option.some.inj hsecond)
      exact ⟨⟨hhere, (answered_set hr hres none).1, trivial⟩, hf, trivial⟩
    | del => exact absurd hsecond (by simp [secondStep])
    | write n' => exact absurd hsecond (by simp [secondStep])
  · -- what the second step names is taken from the node that was found
    rw [heq] at hlook
    obtain ⟨⟨msg, a⟩, hres, hsecond⟩ := Option.bind_eq_some_iff.mp hlook
    have hp := hm.wf.lt_top hn
    cases a with
    | keep => exact absurd (Option.some.inj hsecond) (by simp)
    | set v authr authw =>
      obtain rfl := Threads.Phase.waiting.inj (Option.some.inj hsecond)
      obtain ⟨hans, hle⟩ := answered_set hr hres (some p)
      refine ⟨⟨hhere, hans, hp, fun n' hn' => ?_⟩, ⟨n, hn, hle _ rfl⟩, trivial⟩
      rw [← Option.some.inj (hn.symm.trans hn'), hk]
    | del =>
      obtain rfl := Threads.Phase.waiting.inj (Option.some.inj hsecond)
      obtain ⟨hans, kv, hkv, hdel⟩ := answered_del hr hres p
      obtain rfl := Option.some.inj hkv
      rw [Deletes] at hdel
      refine ⟨⟨hhere, hans, hp, fun n' hn' => ?_⟩, ⟨n, hn, fun hhead => ?_⟩, trivial⟩
      · obtain rfl := Option.some.inj (hn.symm.trans hn')
        refine ⟨hk, fun hhead => ?_⟩
        rw [if_neg hhead] at hdel
        exact hdel
      · rw [if_pos hhead] at hdel
        exact hdel
    | write n' =>
      obtain ⟨d, hdata, hsecond⟩ := Option.bind_eq_some_iff.mp hsecond
      have hd : n.dataAddr = some d := hdata
      obtain ⟨e, he, hu⟩ := Option.map_eq_some_iff.mp hsecond
      obtain rfl := Threads.Phase.waiting.inj hu
      obtain ⟨kv, e', v', hkv, hans, hexp, hle, happ, hrun, -⟩ := answered_edit hr hres p d
      obtain rfl := Option.some.inj hkv
      obtain rfl := Option.some.inj (hans.1.symm.trans he)
      have hdata : m.data d = some v := by
        rw [← hv, hd]
        rfl
      refine ⟨⟨hhere, hans, hp, hm.wf.addr_lt_top hn hd, fun q n' hq hq' => ?_, fun n' hn' => ?_⟩,
        ⟨?_, fun v₁ hv₁ => ?_⟩, n, hn, hd⟩
      · exact hm.wf.separate q p n' n d hq hn hq' hd
      · obtain rfl := Option.some.inj (hn.symm.trans hn')
        refine ⟨hk, hexp, fun _ => hle, v, hdata, ?_⟩
        exact Option.isSome_iff_exists.mpr ⟨_, hrun⟩
      · rw [hn]
        rfl
      · rw [← Option.some.inj (hdata.symm.trans hv₁)]
        exact happ

/-- **Looking again** leads to the same second step, when it finds what it needs. -/
theorem look_of_pending (hm : m.Represents h) (hpend : m.Pending r u) (hsuits : m.Suits r u)
    (hatt : m.Attached u) : m.look r = some (.waiting u) := by
  obtain ⟨hhere, hans, htracks⟩ := hpend
  -- the lookup of a node that is there
  have hnode : ∀ p n, m.node p = some n → n.k = keyOf (words r.com) → ∃ v,
      m.value n.dataAddr = some v ∧ m.look r = (r.result (some (n.kv v))).bind
        (secondStep (words r.com) (some (p, n.dataAddr))) := by
    intro p n hn hk
    have hfind := hm.findNode_of_node hn
    rw [hk] at hfind
    rcases look_eq hm hhere with ⟨hf, -, -⟩ | ⟨p', n', v, hf, hn', hv, -, -, heq⟩
    · exact absurd (hf.symm.trans hfind) (by simp)
    · obtain rfl := Option.some.inj (hf.symm.trans hfind)
      obtain rfl := Option.some.inj (hn'.symm.trans hn)
      exact ⟨v, hv, heq⟩
  cases u with
  | set p k v authr authw msg =>
    obtain ⟨rfl, -, hres⟩ := hans
    cases p with
    | none =>
      rcases look_eq hm hhere with ⟨-, -, heq⟩ | ⟨p, -, -, hf, -⟩
      · rw [heq, hres none (by simp)]
        rfl
      · exact absurd (hf.symm.trans hsuits) (by simp)
    | some p =>
      obtain ⟨n, hn, hle⟩ := hsuits
      obtain ⟨v', -, heq⟩ := hnode p n hn (htracks.2 n hn)
      rw [heq, hres]
      · rfl
      · rintro kv hkv
        rw [← Option.some.inj hkv]
        exact hle
  | del p k msg =>
    obtain ⟨rfl, hres⟩ := hans
    obtain ⟨n, hn, hle⟩ := hsuits
    obtain ⟨hk, hexp⟩ := htracks.2 n hn
    obtain ⟨v', -, heq⟩ := hnode p n hn hk
    rw [heq, hres]
    · rfl
    · rw [Deletes]
      split_ifs with hhead
      · exact hle hhead
      · exact hexp hhead
  | edit p a e =>
    obtain ⟨he, hres⟩ := hans
    obtain ⟨n, hn, ha⟩ := hatt
    obtain ⟨hk, hexp, hle, v, hv, hrun⟩ := htracks.2.2.2 n hn
    obtain ⟨x, hx⟩ := Option.isSome_iff_exists.mp hrun
    obtain ⟨v', hv', heq⟩ := hnode p n hn hk
    obtain rfl : v' = v := by
      rw [ha] at hv'
      exact Option.some.inj (hv'.symm.trans hv)
    rw [heq, hres (n.kv v') x.1 x.2 hexp (hle ha) hx (hsuits.2 v' hv), ha]
    change (editOf (words r.com)).map _ = _
    rw [he]
    rfl

/-! ### The second step behind the first one -/

theorem Represents.notHere (hm : m.Represents h) : m.notHere = Command.notHere h := by
  funext k
  rw [Memory.notHere, Command.notHere, hm.startNum, hm.endNum]

variable {w : World}

/-- A command that is not refused is one action. -/
theorem execute_eq (hm : m.Represents w.h) (hr : Apart r)
    (hhere : (words r.com).tail.head?.any m.notHere = false) :
    execute r.com r.auth r.currTime w = (r.result (w.h.findNode (keyOf (words r.com)))).bind fun x =>
      (w.h.apply (keyOf (words r.com)) x.2).map fun h => (x.1, { w with h := h }) := by
  have hsend : Sendable (words r.com) := fun word hword =>
    (by decide : ∀ word ∈ twoStepWords, word ∈ writeWords) word (hr word hword)
  rw [hm.notHere] at hhere
  exact executeWords_write hsend hhere

/-- A command that is refused. -/
theorem execute_refused (hm : m.Represents w.h) (hr : Apart r)
    (hno : (words r.com).tail.head?.any m.notHere = true) : execute r.com r.auth r.currTime w
      = some (lit "hashval " ++ toStr (Hash.hashFunc (keyOf (words r.com))), w) := by
  rw [hm.notHere] at hno
  rw [execute]
  match hws : words r.com with
  | [] =>
    rw [hws] at hno
    exact absurd hno (by simp)
  | [_] =>
    rw [hws] at hno
    exact absurd hno (by simp)
  | word :: k :: args =>
    rw [hws] at hno
    have hword : word ∉ controlWords :=
      (by decide : ∀ word ∈ twoStepWords, word ∉ controlWords) word (hr word (by rw [hws]; rfl))
    rw [executeWords, if_neg hword, if_pos (by simpa using hno)]
    rfl

/-- **A command that is done after its first step**. -/
theorem execute_of_done {msg : Str} (hm : m.Represents w.h) (hr : Apart r)
    (hlook : m.look r = some (.done msg)) : execute r.com r.auth r.currTime w = some (msg, w) := by
  by_cases hno : (words r.com).tail.head?.any m.notHere = true
  · rw [look, if_pos hno] at hlook
    rw [execute_refused hm hr hno, Threads.Phase.done.inj (Option.some.inj hlook)]
  · have hhere := Bool.eq_false_of_not_eq_true hno
    have hkeep : ∀ {node : Option Kv} {found : Option (ℕ × Option ℕ)},
        (r.result node).bind (secondStep (words r.com) found) = some (.done msg) →
          r.result node = some (msg, .keep) := by
      intro node found hres
      obtain ⟨⟨msg', a⟩, hres, hsecond⟩ := Option.bind_eq_some_iff.mp hres
      cases a with
      | keep => rw [hres, Threads.Phase.done.inj (Option.some.inj hsecond)]
      | set => exact absurd (Option.some.inj hsecond) (by simp)
      | del =>
        obtain ⟨x, -, hx⟩ := Option.map_eq_some_iff.mp hsecond
        exact absurd hx (by simp)
      | write =>
        obtain ⟨x, -, hx⟩ := Option.bind_eq_some_iff.mp hsecond
        obtain ⟨d, -, hd⟩ := Option.bind_eq_some_iff.mp hx
        obtain ⟨e, -, he⟩ := Option.map_eq_some_iff.mp hd
        exact absurd he (by simp)
    rw [execute_eq hm hr hhere]
    rcases look_eq hm hhere with ⟨-, hf, heq⟩ | ⟨p, n, v, -, -, -, -, hf, heq⟩
    · rw [hf, hkeep (heq.symm.trans hlook)]
      rfl
    · rw [hf, hkeep (heq.symm.trans hlook)]
      rfl

/-- **A fault in the first step**. -/
theorem execute_of_fault (hm : m.Represents w.h) (hr : Apart r) (hlook : m.look r = none) :
    execute r.com r.auth r.currTime w = none := by
  by_cases hno : (words r.com).tail.head?.any m.notHere = true
  · rw [look, if_pos hno] at hlook
    exact absurd hlook (by simp)
  · have hhere := Bool.eq_false_of_not_eq_true hno
    rw [execute_eq hm hr hhere]
    rcases look_eq hm hhere with ⟨-, hf, heq⟩ | ⟨p, n, v, -, hn, hv, -, hf, heq⟩
    · rw [hf]
      cases hres : r.result none with
      | none => rfl
      | some x =>
        obtain ⟨msg, a⟩ := x
        rw [heq, hres, Option.bind_some] at hlook
        cases a with
        | keep | set => exact absurd hlook (by simp [secondStep])
        | del =>
          obtain ⟨-, n, hn, -⟩ := answered_del hr hres 0
          exact absurd hn (by simp)
        | write =>
          obtain ⟨n, -, -, hn, -⟩ := answered_edit hr hres 0 0
          exact absurd hn (by simp)
    · rw [hf]
      cases hres : r.result (some (n.kv v)) with
      | none => rfl
      | some x =>
        obtain ⟨msg, a⟩ := x
        rw [heq, hres, Option.bind_some] at hlook
        cases a with
        | keep | set | del => exact absurd hlook (by simp [secondStep])
        | write n' =>
          obtain ⟨kv, e, v', hkv, hans, -, -, -, hrun, -⟩ := answered_edit hr hres 0 0
          obtain rfl := Option.some.inj hkv
          cases hd : n.dataAddr with
          | none =>
            -- without data no change runs, so the command itself is a fault
            rw [hd] at hv
            obtain rfl := Option.some.inj hv
            exact absurd hrun (by rw [HashNode.kv, Edit.run_unset]; simp)
          | some d =>
            rw [hd] at hlook
            change (editOf (words r.com)).map _ = none at hlook
            rw [hans.1] at hlook
            exact absurd hlook (by simp)

/-- **The second step right behind the first one** does what the command does to the table. -/
theorem mutate_look (hm : m.Represents w.h) (hr : Apart r) (hlook : m.look r = some (.waiting u)) :
    Option.Rel (fun x y => x.1 = y.1 ∧ x.2.Represents y.2.h) (m.mutate u)
      (execute r.com r.auth r.currTime w) := by
  obtain ⟨⟨hhere, hans, htracks⟩, hsuits, hatt⟩ := pending_of_look hm hr hlook
  rw [execute_eq hm hr hhere]
  cases u with
  | set p k v authr authw msg =>
    obtain ⟨rfl, hset, hres⟩ := hans
    cases p with
    | none =>
      have hf := hm.findNode_eq_none hsuits
      rw [hf, hres none (by simp)]
      exact .some ⟨rfl, hm.push hf hset authr authw⟩
    | some p =>
      obtain ⟨n, hn, hle⟩ := hsuits
      obtain ⟨hfind, v', -, hkv⟩ := hm.entry_of_node hn (htracks.2 n hn)
      have hlevel : ∀ kv, some (n.kv v') = some kv → kv.authw ≤ r.auth := by
        rintro kv hkv
        rw [← Option.some.inj hkv]
        exact hle
      rw [hkv, hres _ hlevel, mutate, hn]
      exact .some ⟨rfl, hm.overwrite hfind hn hset authr authw⟩
  | del p k msg =>
    obtain ⟨rfl, hres⟩ := hans
    obtain ⟨n, hn, hle⟩ := hsuits
    obtain ⟨hk, hexp⟩ := htracks.2 n hn
    obtain ⟨hfind, v, hv, hkv⟩ := hm.entry_of_node hn hk
    have hdel : Deletes r (n.kv v) := by
      rw [Deletes]
      split_ifs with hhead
      · exact hle hhead
      · exact hexp hhead
    rw [hkv, hres _ hdel, mutate, hn, Option.bind_some, Option.bind_some]
    change Option.Rel _ _ ((w.h.del (keyOf (words r.com))).map _)
    cases hd : n.dataAddr with
    | none =>
      -- an unset value is a fault
      rw [hd] at hv
      obtain rfl := Option.some.inj hv
      rw [Hash.del_eq_none_of_unset hkv rfl]
      exact .none
    | some d =>
      obtain ⟨v', hv'⟩ := hm.wf.exists_data hn hd
      obtain ⟨h', hdel, hm'⟩ := hm.free hfind hn hd
      rw [hdel, Option.bind_some, hv']
      exact .some ⟨rfl, hm'⟩
  | edit p d e =>
    obtain ⟨-, hres⟩ := hans
    obtain ⟨n, hn, hd⟩ := hatt
    obtain ⟨hk, hexp, hle, v, hv, hrun⟩ := htracks.2.2.2 n hn
    obtain ⟨x, hx⟩ := Option.isSome_iff_exists.mp hrun
    obtain ⟨hfind, v', hv', hkv⟩ := hm.entry_of_node hn hk
    obtain rfl : v' = v := by
      rw [hd] at hv'
      exact Option.some.inj (hv'.symm.trans hv)
    rw [hkv, hres (n.kv v') x.1 x.2 hexp (hle hd) hx (hsuits.2 v' hv), mutate, hn, Option.bind_some,
      hv, Option.bind_some, hx]
    exact .some ⟨rfl, hm.write hfind hn hd hv (Edit.run_keeps hx).1⟩

end Memory

end MuseKv
