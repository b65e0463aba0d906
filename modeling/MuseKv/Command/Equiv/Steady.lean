import MuseKv.Command.Equiv.Answers
import MuseKv.Command.Equiv.Replay
import MuseKv.Hash.Equiv.Record

/-!
# Writes on entries without a lifetime

As long as no lifetime is set, the time does not matter to a write (`keyResult_time`), and a write sets
none.  The elements it stores are words, so none of its replies starts with a blank
(`keyResult_steady`).
-/

namespace MuseKv

open Kvstore

/-- A value whose elements have no blank. -/
def Value.Blankless : Value → Prop
  | .list l => ∀ x ∈ l, byte ' ' ∉ x
  | .set s => ∀ x ∈ s, byte ' ' ∉ x
  | _ => True

/-- An entry without a lifetime, whose elements have no blank. -/
structure Kv.Steady (n : Kv) : Prop where
  ttl : n.ttl = -1
  finished : n.finished = false
  v : n.v.Blankless

/-- Nothing, or such an entry. -/
def Steady (node : Option Kv) : Prop := ∀ n, node = some n → n.Steady

theorem Kv.Steady.isExpired {n : Kv} (h : n.Steady) (t : Int) : n.isExpired t = false := by
  rw [Kv.isExpired, h.finished, h.ttl]
  rfl

theorem Kv.Steady.setV {n : Kv} (h : n.Steady) {v : Value} (hv : v.Blankless) :
    (n.setV v).Steady := ⟨h.ttl, h.finished, hv⟩

namespace Command

variable {c : Call} {node : Option Kv} {word : Str}

/-! ### The time -/

/-- A handler that does not look at the time. -/
def Timeless (f : KeyHandler) : Prop :=
  ∀ (c : Call) (node : Option Kv) (t : Int), Steady node → f { c with currTime := t } node = f c node

theorem live_eq_present (hnode : Steady node) (body : Kv → Result) :
    live c node body = present c node body := by
  cases node with
  | none => rfl
  | some n =>
    rw [live, (hnode n rfl).isExpired]
    rfl

/-- A handler that looks at it only to see whether the entry is expired. -/
theorem timeless_live {f : KeyHandler} {body : Call → Kv → Result}
    (hf : ∀ c node, f c node = live c node (body c))
    (hbody : ∀ c t, body { c with currTime := t } = body c) : Timeless f := by
  intro c node t hnode
  rw [hf, hf, live_eq_present hnode, live_eq_present hnode, hbody]
  rfl

/-! ### What is stored -/

/-- A reply that does not start with a blank, and an entry without a lifetime. -/
def Keeps (node : Option Kv) (msg : Str) (a : KeyAction) : Prop :=
  msg.head? ≠ some (byte ' ') ∧ Steady (a.run node)

theorem keeps_reply {msg : Str} (hnode : Steady node) (h : msg.head? ≠ some (byte ' ')) :
    Keeps node msg .keep := ⟨h, hnode⟩

theorem keeps_set {msg : Str} {v : Value} {r w : UInt8} (hnode : Steady node)
    (h : msg.head? ≠ some (byte ' ')) (hv : v.Blankless) : Keeps node msg (.set v r w) := by
  refine ⟨h, fun n' hn' => ?_⟩
  obtain rfl := Option.some.inj hn'
  cases node with
  | none => exact ⟨rfl, rfl, hv⟩
  | some n => exact ⟨(hnode n rfl).ttl, (hnode n rfl).finished, hv⟩

theorem keeps_write {msg : Str} {n n' : Kv} (h : msg.head? ≠ some (byte ' ')) (hn' : n'.Steady) :
    Keeps (some n) msg (.write n') := by
  refine ⟨h, fun m hm => ?_⟩
  obtain rfl := Option.some.inj hm
  exact hn'

/-- A handler that keeps entries without a lifetime, on words. -/
def Steadies (f : KeyHandler) : Prop :=
  ∀ (c : Call) (node : Option Kv), (∀ x ∈ c.args, byte ' ' ∉ x) → Steady node →
    Answers (Keeps node) (f c node)

theorem head?_ne_of_not_mem {msg : Str} (h : byte ' ' ∉ msg) : msg.head? ≠ some (byte ' ') :=
  fun hhead => h (List.mem_of_head? hhead)

theorem head?_toStr (x : Int) : (toStr x).head? ≠ some (byte ' ') :=
  head?_ne_of_not_mem (not_mem_toStr (by decide) (by decide) x)

theorem head?_confirmMsg : confirmMsg.head? ≠ some (byte ' ') := by decide

theorem head?_noSuchKey (k : Str) : (noSuchKey k).head? ≠ some (byte ' ') := by
  change some (byte 'E') ≠ some (byte ' ')
  decide

theorem steadies_live {f : KeyHandler} {body : Call → Kv → Result}
    (hf : ∀ c node, f c node = live c node (body c))
    (hbody : ∀ c n, (∀ x ∈ c.args, byte ' ' ∉ x) → n.Steady →
      Answers (Keeps (some n)) (body c n)) : Steadies f := by
  intro c node hargs hnode
  rw [hf]
  refine .live (fun n hn => (hnode n hn).isExpired _) (keeps_reply hnode (head?_noSuchKey _)) ?_
  intro n hn
  subst hn
  exact hbody c n hargs (hnode n rfl)

theorem steadies_onList {f : KeyHandler} {body : Call → Kv → List Str → Result}
    (hf : ∀ c node, f c node = onList c Kv.authw node (body c))
    (hbody : ∀ c n l, (∀ x ∈ c.args, byte ' ' ∉ x) → n.Steady → (∀ x ∈ l, byte ' ' ∉ x) →
      Answers (Keeps (some n)) (body c n l)) : Steadies f := by
  refine steadies_live hf fun c n hargs hn => ?_
  have hv := hn.v
  have hnode : Steady (some n) := fun m hm => Option.some.inj hm ▸ hn
  cases hval : n.v with
  | list l =>
    rw [hval] at hv
    exact .permitted (keeps_reply hnode (by decide)) fun _ => hbody c n l hargs hn hv
  | _ => exact .act (keeps_reply hnode (by decide))

theorem steadies_onSet {f : KeyHandler} {body : Call → Kv → Hashset → Result}
    (hf : ∀ c node, f c node = onSet c Kv.authw node (body c))
    (hbody : ∀ c n s, (∀ x ∈ c.args, byte ' ' ∉ x) → n.Steady → (∀ x ∈ s, byte ' ' ∉ x) →
      Answers (Keeps (some n)) (body c n s)) : Steadies f := by
  refine steadies_live hf fun c n hargs hn => ?_
  have hv := hn.v
  have hnode : Steady (some n) := fun m hm => Option.some.inj hm ▸ hn
  cases hval : n.v with
  | set s =>
    rw [hval] at hv
    exact .permitted (keeps_reply hnode (by decide)) fun _ => hbody c n s hargs hn hv
  | _ => exact .act (keeps_reply hnode (by decide))

theorem steadies_onHashmap {f : KeyHandler} {body : Call → Kv → Hashmap → Result}
    (hf : ∀ c node, f c node = onHashmap c Kv.authw node (body c))
    (hbody : ∀ c n m, n.Steady → Answers (Keeps (some n)) (body c n m)) : Steadies f := by
  refine steadies_live hf fun c n hargs hn => ?_
  have hnode : Steady (some n) := fun m hm => Option.some.inj hm ▸ hn
  cases hval : n.v with
  | hashmap m => exact .permitted (keeps_reply hnode (by decide)) fun _ => hbody c n m hn
  | _ => exact .act (keeps_reply hnode (by decide))

/-! ### The handlers -/

theorem steady_some {n : Kv} (h : n.Steady) : Steady (some n) := fun _ hm => Option.some.inj hm ▸ h

theorem make_steadies : Steadies make := by
  rintro ⟨k, args, auth, t⟩ node hargs hnode
  have hset : ∀ {data : Str} {r w : UInt8},
      Answers (Keeps node) (some (confirmMsg, .set (.string data) r w)) :=
    .act (keeps_set hnode (by decide) trivial)
  have hbad : Keeps node invalidAuth .keep := keeps_reply hnode (by decide)
  have hno : Keeps node notEnoughPermission .keep := keeps_reply hnode (by decide)
  refine .overwritable hno ?_
  rcases args with _ | ⟨data, _ | ⟨arg3, _ | ⟨arg4, _ | ⟨_, _⟩⟩⟩⟩
  · exact .fault
  · exact hset
  · exact .withInt hbad fun _ _ => .ite (fun _ => .act hbad) fun _ => .withinAuth hno fun _ => hset
  · dsimp only
    rcases strtoint arg3 with _ | ⟨b1, x⟩
    · exact .fault
    rcases strtoint arg4 with _ | ⟨b2, y⟩
    · exact .fault
    exact .ite (fun _ => .act hbad) fun _ => .ite (fun _ => .act hbad) fun _ =>
      .withinAuth hno fun _ => .withinAuth hno fun _ => .ite (fun _ => .act hbad) fun _ => hset
  · exact .fault

theorem del_steadies : Steadies del := by
  intro c node _ hnode
  cases node with
  | none => exact .act (keeps_reply hnode (head?_noSuchKey _))
  | some n =>
    exact .permitted (keeps_reply hnode (by decide)) fun _ =>
      .act ⟨by decide, fun m hm => absurd hm (by simp [KeyAction.run])⟩

/-- The pieces of the arguments have no blank. -/
theorem not_mem_joined (hargs : ∀ x ∈ c.args, byte ' ' ∉ x) {l : List Str}
    (hl : Value.splitData c.joined = some l) : ∀ x ∈ l, byte ' ' ∉ x := by
  rw [Value.splitData] at hl
  split_ifs at hl
  obtain rfl := Option.some.inj hl
  intro x hx hblank
  have hmem := (mem_split hx).2 _ hblank
  rw [Call.joined, joinArgs_eq] at hmem
  rcases mem_merge hmem with hcomma | ⟨y, hy, hblank⟩
  · exact absurd hcomma (by decide)
  · rcases List.mem_cons.mp hy with rfl | hy
    · cases hc : c.args with
      | nil =>
        rw [Call.arg, hc] at hblank
        exact absurd hblank (by simp)
      | cons z zs =>
        rw [Call.arg, hc] at hblank
        exact hargs z (by rw [hc]; exact List.mem_cons_self ..) hblank
    · exact hargs y (List.mem_of_mem_tail hy) hblank

theorem lmake_steadies : Steadies lmake := by
  intro c node hargs hnode
  refine .overwritable (keeps_reply hnode (by decide)) ?_
  rw [Value.dataEncode, Option.map_map]
  refine .map fun l hl => keeps_set hnode (head?_toStr c.args.length) fun x hx => ?_
  rw [foldl_pushBack, List.nil_append] at hx
  exact not_mem_joined hargs hl x hx

theorem smake_steadies : Steadies smake := by
  intro c node hargs hnode
  refine .overwritable (keeps_reply hnode (by decide)) ?_
  refine .map fun l hl => keeps_set hnode
    (head?_toStr (l.foldl Hashset.push Hashset.empty).getLength) fun x hx => ?_
  rcases (Hashset.mem_foldl_push l _).mp hx with hx | hx
  · exact not_mem_joined hargs hl x hx
  · exact absurd hx (Hashset.not_mem_empty x)

theorem hmake_steadies : Steadies hmake := by
  intro c node hargs hnode
  refine .ite (fun _ => .act (keeps_reply hnode (by decide))) fun _ => ?_
  refine .overwritable (keeps_reply hnode (by decide)) ?_
  rw [Value.dataEncode, Option.map_map]
  exact .map fun l hl => keeps_set hnode head?_confirmMsg trivial

theorem mem_foldl_pushFront {x : Str} (xs l : List Str) :
    x ∈ xs.foldl Linkedlist.pushFront l ↔ x ∈ xs ∨ x ∈ l := by
  induction xs generalizing l with
  | nil => simp
  | cons y xs ih =>
    rw [List.foldl_cons, ih, Linkedlist.pushFront, List.mem_cons, List.mem_cons]
    tauto

theorem lpush_steadies : Steadies lpush := by
  refine steadies_onList (fun _ _ => rfl) fun c n l hargs hn hl => .act (keeps_write head?_confirmMsg
    (hn.setV fun x hx => ?_))
  rcases (mem_foldl_pushFront _ _).mp hx with hx | hx
  · exact hargs x hx
  · exact hl x hx

theorem rpush_steadies : Steadies rpush := by
  refine steadies_onList (fun _ _ => rfl) fun c n l hargs hn hl => .act (keeps_write head?_confirmMsg
    (hn.setV fun x hx => ?_))
  rw [foldl_pushBack, List.mem_append] at hx
  rcases hx with hx | hx
  · exact hl x hx
  · exact hargs x hx

/-- What is popped is an element, and what is left are elements. -/
theorem popList_steadies {pop : List Str → Str × List Str}
    (hpop : ∀ l, ((pop l).1 = [] ∨ (pop l).1 ∈ l) ∧ ∀ x ∈ (pop l).2, x ∈ l) :
    Steadies (popList pop) := by
  refine steadies_onList (fun _ _ => rfl) fun c n l hargs hn hl => .ite
    (fun _ => .act (keeps_reply (steady_some hn) (by decide)))
    fun _ => .act (keeps_write ?_ (hn.setV fun x hx => hl x ((hpop l).2 x hx)))
  rcases (hpop l).1 with hnil | hmem
  · rw [hnil]
    simp
  · exact head?_ne_of_not_mem (hl _ hmem)

theorem lpop_steadies : Steadies lpop := by
  refine popList_steadies fun l => ?_
  cases l with
  | nil => exact ⟨Or.inl rfl, fun x hx => hx⟩
  | cons y l => exact ⟨Or.inr (List.mem_cons_self ..), fun x hx => List.mem_cons_of_mem y hx⟩

theorem rpop_steadies : Steadies rpop := by
  refine popList_steadies fun l => ⟨?_, fun x hx => List.mem_of_mem_dropLast hx⟩
  rw [Linkedlist.popBack]
  cases hlast : l.getLast? with
  | none => exact Or.inl rfl
  | some x => exact Or.inr (List.mem_of_getLast? hlast)

theorem lset_steadies : Steadies lset := by
  refine steadies_onList (fun _ _ => rfl) fun c n l hargs hn hl => .ite
    (fun _ => .act (keeps_reply (steady_some hn) (by decide))) fun _ =>
    .withInt (keeps_reply (steady_some hn) (by decide)) fun index _ => .map fun l' hl' => ?_
  refine keeps_write head?_confirmMsg (hn.setV fun x hx => ?_)
  rw [Linkedlist.set] at hl'
  split_ifs at hl'
  obtain rfl := Option.some.inj hl'
  rcases List.mem_or_eq_of_mem_set hx with hx | rfl
  · exact hl x hx
  · intro hblank
    rw [Call.arg, List.getD_eq_getElem?_getD] at hblank
    cases harg : c.args[1]? with
    | none =>
      rw [harg] at hblank
      exact absurd hblank (by simp)
    | some y =>
      rw [harg] at hblank
      exact hargs y (List.mem_of_getElem? harg) hblank

theorem lerase_steadies : Steadies lerase := by
  refine steadies_onList (fun _ _ => rfl) fun c n l hargs hn hl => .ite
    (fun _ => .act (keeps_reply (steady_some hn) (by decide))) fun _ =>
    .withInt (keeps_reply (steady_some hn) (by decide)) fun index _ => .act ?_
  refine keeps_write head?_confirmMsg (hn.setV fun x hx => ?_)
  rw [Linkedlist.del] at hx
  split_ifs at hx
  exact hl x (List.mem_of_mem_eraseIdx hx)

theorem spush_steadies : Steadies spush := by
  refine steadies_onSet (fun _ _ => rfl) fun c n s hargs hn hs => .act (keeps_write head?_confirmMsg
    (hn.setV fun x hx => ?_))
  rcases (Hashset.mem_foldl_push _ _).mp hx with hx | hx
  · exact hargs x hx
  · exact hs x hx

theorem spop_steadies : Steadies spop := by
  refine steadies_onSet (fun _ _ => rfl) fun c n s hargs hn hs => .ite
    (fun _ => .act (keeps_reply (steady_some hn) (by decide))) fun _ =>
    .act (keeps_write ?_ (hn.setV fun x hx => hs x (Hashset.mem_of_mem_pop hx)))
  rcases s.pop_fst with hnil | hmem
  · rw [hnil]
    simp
  · exact head?_ne_of_not_mem (hs _ hmem)

theorem serase_steadies : Steadies serase := by
  refine steadies_onSet (fun _ _ => rfl) fun c n s hargs hn hs => .ite
    (fun _ => .act (keeps_reply (steady_some hn) (by decide))) fun _ =>
    .act (keeps_write ?_ (hn.setV fun x hx => hs x (Hashset.mem_of_mem_del hx)))
  split_ifs
  · decide
  · change some (byte 'E') ≠ some (byte ' ')
    decide

theorem hpush_steadies : Steadies hpush :=
  steadies_onHashmap (fun _ _ => rfl) fun _ _ _ hn =>
    .act (keeps_write head?_confirmMsg (hn.setV trivial))

theorem herase_steadies : Steadies herase := by
  refine steadies_onHashmap (fun _ _ => rfl) fun c n m hn => .ite
    (fun _ => .act (keeps_reply (steady_some hn) (by decide))) fun _ => ?_
  cases m.findHashmapNode (c.arg 0) with
  | none =>
    refine .act (keeps_reply (steady_some hn) ?_)
    change some (byte 'E') ≠ some (byte ' ')
    decide
  | some _ => exact .map fun m' _ => keeps_write head?_confirmMsg (hn.setV trivial)

theorem setLevel_steadies {mutator : Kv → UInt8 → Kv}
    (h : ∀ n x, n.Steady → (mutator n x).Steady) : Steadies (setLevel mutator) := by
  intro c node _ hnode
  cases node with
  | none => exact .act (keeps_reply hnode (head?_noSuchKey _))
  | some n =>
    exact .withInt (keeps_reply hnode (by decide)) fun _ _ =>
      .ite (fun _ => .act (keeps_reply hnode (by decide))) fun _ =>
        .withinAuth (keeps_reply hnode (by decide)) fun _ =>
          .permitted (keeps_reply hnode (by decide)) fun _ =>
            .act (keeps_write head?_confirmMsg (h n _ (hnode n rfl)))

/-! ### A command -/

variable {ws : List Str} {auth : UInt8} {t u : Int}

/-- **The time does not matter** to a write on an entry without a lifetime. -/
theorem keyResult_time (hws : Sendable ws) (hnode : Steady node) :
    keyResult ws auth t node = keyResult ws auth u node := by
  match ws with
  | [] => rfl
  | [_] => rfl
  | word :: k :: args =>
    rw [keyResult, keyResult]
    cases hlook : lookup dispatch word (args.length + 2) with
    | none => rfl
    | some handler =>
      obtain ⟨f, rfl, hf⟩ := writeWords_cases (P := fun _ f => Timeless f) (fun _ _ _ _ => rfl)
        (fun _ _ _ _ => rfl) (fun _ _ _ _ => rfl) (timeless_live (fun _ _ => rfl) fun _ _ => rfl)
        (timeless_live (fun _ _ => rfl) fun _ _ => rfl)
        (timeless_live (fun _ _ => rfl) fun _ _ => rfl)
        (timeless_live (fun _ _ => rfl) fun _ _ => rfl)
        (timeless_live (fun _ _ => rfl) fun _ _ => rfl)
        (timeless_live (fun _ _ => rfl) fun _ _ => rfl) (fun _ _ _ _ => rfl)
        (timeless_live (fun _ _ => rfl) fun _ _ => rfl)
        (timeless_live (fun _ _ => rfl) fun _ _ => rfl)
        (timeless_live (fun _ _ => rfl) fun _ _ => rfl) (fun _ _ _ _ => rfl)
        (timeless_live (fun _ _ => rfl) fun _ _ => rfl)
        (timeless_live (fun _ _ => rfl) fun _ _ => rfl) (fun _ _ _ _ => rfl) (fun _ _ _ _ => rfl)
        (hws word rfl) hlook
      exact (hf ⟨k, args, auth, u⟩ node t hnode)

/-- **A write keeps an entry without a lifetime**, and its reply does not start with a blank. -/
theorem keyResult_steady (hws : Sendable ws) (hwords : ∀ x ∈ ws, byte ' ' ∉ x)
    (hnode : Steady node) {msg : Str} {a : KeyAction}
    (h : keyResult ws auth t node = some (msg, a)) : Keeps node msg a := by
  match ws with
  | [] =>
    obtain ⟨rfl, rfl⟩ := Prod.mk.inj (Option.some.inj h)
    exact keeps_reply hnode (by decide)
  | [_] =>
    obtain ⟨rfl, rfl⟩ := Prod.mk.inj (Option.some.inj h)
    exact keeps_reply hnode (by decide)
  | word :: k :: args =>
    rw [keyResult] at h
    cases hlook : lookup dispatch word (args.length + 2) with
    | none =>
      simp only [hlook] at h
      obtain ⟨rfl, rfl⟩ := Prod.mk.inj (Option.some.inj h)
      exact keeps_reply hnode (by decide)
    | some handler =>
      obtain ⟨f, rfl, hf⟩ := writeWords_cases (P := fun _ f => Steadies f) make_steadies
        del_steadies lmake_steadies lpush_steadies rpush_steadies lpop_steadies rpop_steadies
        lset_steadies lerase_steadies smake_steadies spush_steadies spop_steadies serase_steadies
        hmake_steadies hpush_steadies herase_steadies
        (setLevel_steadies fun _ _ h => ⟨h.ttl, h.finished, h.v⟩)
        (setLevel_steadies fun _ _ h => ⟨h.ttl, h.finished, h.v⟩) (hws word rfl) hlook
      simp only [hlook] at h
      have hargs : ∀ x ∈ args, byte ' ' ∉ x := fun x hx =>
        hwords x (List.mem_cons_of_mem _ (List.mem_cons_of_mem _ hx))
      exact hf ⟨k, args, auth, t⟩ node hargs hnode msg a h

end Command

end MuseKv
