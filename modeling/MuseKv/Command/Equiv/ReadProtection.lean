import MuseKv.Command.Equiv.Execute
import MuseKv.General.BucketsRel

/-!
# Read protection

Two tables look alike up to a level (`Hash.Low a`) when they have the same chains of keys, and under
each key the same type, levels and lifetime, and the same content unless the read level is above `a`.
A handler cannot tell such entries apart: above its authority it answers from the type, the levels
and the lifetime alone (`Blind`, one lemma for each handler), and below it the entries are equal.  So
both tables get the same reply and the same action (`handler_low`), an action on both keeps them alike
(`apply_low`), and two runs of the same commands stay in step (`runAll_low`).  The tables must also
agree on which values were never set (`not_runAll_low_unset`).
-/

namespace MuseKv

open General Kvstore Command

/-! ### Entries that look alike -/

/-- The same type, levels and lifetime. -/
structure Kv.Alike (n n' : Kv) : Prop where
  dataDtype : n.v.dataDtype = n'.v.dataDtype
  authr : n.authr = n'.authr
  authw : n.authw = n'.authw
  ttl : n.ttl = n'.ttl
  timer : n.timer = n'.timer
  finished : n.finished = n'.finished

/-- Alike, with ordered levels, and of one content unless it is protected from the level `a`. -/
structure Kv.Shown (a : UInt8) (n n' : Kv) : Prop extends Kv.Alike n n' where
  ordered : n.authr ≤ n.authw
  content : n.authr ≤ a → n.v = n'.v

/-- A value that was never set has the type of a string, and is told apart from one: deleting it is a
fault. -/
structure Kv.Low (a : UInt8) (n n' : Kv) : Prop extends Kv.Shown a n n' where
  isUnset : n.v.isUnset = n'.v.isUnset

theorem Kv.Low.refl {a : UInt8} {n : Kv} (h : n.authr ≤ n.authw) : n.Low a n where
  dataDtype := rfl
  isUnset := rfl
  authr := rfl
  authw := rfl
  ttl := rfl
  timer := rfl
  finished := rfl
  ordered := h
  content _ := rfl

/-- Up to its read level an entry is known in full. -/
theorem Kv.Low.eq {a : UInt8} {n n' : Kv} (h : n.Low a n') (ha : n.authr ≤ a) : n = n' := by
  cases n with
  | mk v ttl timer finished authr authw =>
    cases n' with
    | mk v' ttl' timer' finished' authr' authw' =>
      obtain ⟨⟨⟨-, rfl, rfl, rfl, rfl, rfl⟩, -, hv⟩, -⟩ := h
      obtain rfl : v = v' := hv ha
      rfl

theorem Kv.Alike.isExpired {n n' : Kv} (h : n.Alike n') (t : Int) :
    n.isExpired t = n'.isExpired t := by
  rw [Kv.isExpired, Kv.isExpired, h.ttl, h.timer, h.finished]

/-- What an allowed action writes has ordered levels. -/
theorem Command.Allowed.ordered {c : Call} {n n' : Kv} (h : Allowed c (some n) (.write n'))
    (hn : n.authr ≤ n.authw) : n'.authr ≤ n'.authw := by
  cases h with
  | same => exact hn
  | content => exact hn
  | ttl => exact hn
  | @authr _ x _ _ =>
    change x ≤ (if x > n.authw then x else n.authw)
    split_ifs with hx
    · exact UInt8.le_refl x
    · exact UInt8.not_lt.mp hx
  | @authw _ x _ _ =>
    change (if n.authr > x then x else n.authr) ≤ x
    split_ifs with hx
    · exact UInt8.le_refl x
    · exact UInt8.not_lt.mp hx

namespace Command

/-! ### Handlers above their authority -/

/-- On an entry whose read level is above the authority, the answer depends on the type, the levels
and the lifetime only. -/
def Blind (f : KeyHandler) : Prop :=
  ∀ c n n', Kv.Alike n n' → c.auth < n.authr → n.authr ≤ n.authw →
    f c (some n) = f c (some n')

variable {c : Call} {n n' : Kv}

theorem permitted_refused {level : UInt8} (h : c.auth < level) (body : Result) :
    permitted c level body = reply notEnoughPermission := by
  rw [permitted, if_pos h]

theorem live_alike (h : n.Alike n') {body body' : Kv → Result} (hbody : body n = body' n') :
    live c (some n) body = live c (some n') body' := by
  rw [live, live, ← h.isExpired, hbody]

theorem overwritable_refused (hw : c.auth < n.authw) (body : Result) :
    overwritable c (some n) body = reply notEnoughPermission :=
  permitted_refused hw body

theorem onList_refused {level : Kv → UInt8} (h : n.Alike n') (hl : c.auth < level n)
    (hl' : c.auth < level n') (body : Kv → List Str → Result) :
    onList c level (some n) body = onList c level (some n') body := by
  refine live_alike h ?_
  have ht := h.dataDtype
  cases hv : n.v <;> cases hv' : n'.v <;>
    simp_all [Value.dataDtype, permitted_refused]

theorem onSet_refused {level : Kv → UInt8} (h : n.Alike n') (hl : c.auth < level n)
    (hl' : c.auth < level n') (body : Kv → Hashset → Result) :
    onSet c level (some n) body = onSet c level (some n') body := by
  refine live_alike h ?_
  have ht := h.dataDtype
  cases hv : n.v <;> cases hv' : n'.v <;>
    simp_all [Value.dataDtype, permitted_refused]

theorem onHashmap_refused {level : Kv → UInt8} (h : n.Alike n') (hl : c.auth < level n)
    (hl' : c.auth < level n') (body : Kv → Hashmap → Result) :
    onHashmap c level (some n) body = onHashmap c level (some n') body := by
  refine live_alike h ?_
  have ht := h.dataDtype
  cases hv : n.v <;> cases hv' : n'.v <;>
    simp_all [Value.dataDtype, permitted_refused]

/-- Above the read level is above the write level. -/
theorem lt_authw (hr : c.auth < n.authr) (ho : n.authr ≤ n.authw) : c.auth < n.authw := by
  rw [UInt8.lt_iff_toNat_lt] at hr ⊢
  rw [UInt8.le_iff_toNat_le] at ho
  omega

theorem blind_live {body : Call → Kv → Result} (h : ∀ c n n', Kv.Alike n n' → c.auth < n.authr →
    n.authr ≤ n.authw → body c n = body c n') : Blind fun c node => live c node (body c) :=
  fun c n n' ha hr ho => live_alike ha (h c n n' ha hr ho)

theorem blind_overwritable {body : Call → Result} :
    Blind fun c node => overwritable c node (body c) := by
  intro c n n' ha hr ho
  have hw := lt_authw hr ho
  change overwritable c (some n) _ = overwritable c (some n') _
  rw [overwritable_refused hw, overwritable_refused (ha.authw ▸ hw)]

theorem blind_onList_authr {body : Call → Kv → List Str → Result} :
    Blind fun c node => onList c Kv.authr node (body c) :=
  fun _ _ _ ha hr _ => onList_refused ha hr (ha.authr ▸ hr) _

theorem blind_onList_authw {body : Call → Kv → List Str → Result} :
    Blind fun c node => onList c Kv.authw node (body c) :=
  fun _ _ _ ha hr ho => onList_refused ha (lt_authw hr ho) (ha.authw ▸ lt_authw hr ho) _

theorem blind_onSet_authw {body : Call → Kv → Hashset → Result} :
    Blind fun c node => onSet c Kv.authw node (body c) :=
  fun _ _ _ ha hr ho => onSet_refused ha (lt_authw hr ho) (ha.authw ▸ lt_authw hr ho) _

theorem blind_onHashmap_authr {body : Call → Kv → Hashmap → Result} :
    Blind fun c node => onHashmap c Kv.authr node (body c) :=
  fun _ _ _ ha hr _ => onHashmap_refused ha hr (ha.authr ▸ hr) _

theorem blind_onHashmap_authw {body : Call → Kv → Hashmap → Result} :
    Blind fun c node => onHashmap c Kv.authw node (body c) :=
  fun _ _ _ ha hr ho => onHashmap_refused ha (lt_authw hr ho) (ha.authw ▸ lt_authw hr ho) _

theorem get_blind : Blind get :=
  blind_live fun c n n' ha hr _ => by
    rw [permitted_refused hr, permitted_refused (ha.authr ▸ hr)]

theorem getTtl_blind : Blind getTtl :=
  blind_live fun c n n' ha hr _ => by
    rw [permitted_refused hr, permitted_refused (ha.authr ▸ hr)]

theorem del_blind : Blind del := by
  intro c n n' ha hr ho
  have hw := lt_authw hr ho
  rw [del, del, present, present, permitted_refused hw, permitted_refused (ha.authw ▸ hw)]

theorem setLevel_blind (mutator : Kv → UInt8 → Kv) : Blind (setLevel mutator) := by
  intro c n n' ha hr ho
  have hw := lt_authw hr ho
  simp only [setLevel, present, permitted_refused hw, permitted_refused (ha.authw ▸ hw)]

theorem expire_blind : Blind expire := by
  intro c n n' ha hr ho
  have hw := lt_authw hr ho
  rw [expire, expire]
  congr 1
  funext timeEx
  exact live_alike ha (by rw [permitted_refused hw, permitted_refused (ha.authw ▸ hw)])

theorem sort_blind : Blind sort :=
  blind_live fun c n n' ha hr _ => by
    have hr' := ha.authr ▸ hr
    have ht := ha.dataDtype
    cases hv : n.v <;> cases hv' : n'.v <;>
      simp_all [Value.dataDtype, permitted_refused]

theorem hmake_blind : Blind hmake := by
  intro c n n' ha hr ho
  rw [hmake, hmake]
  split_ifs
  · rfl
  · have hw := lt_authw hr ho
    rw [overwritable_refused hw, overwritable_refused (ha.authw ▸ hw)]

/-- **No handler sees above its authority.** -/
theorem handler_blind {word : Str} {m : ℕ} {f : KeyHandler}
    (h : lookup dispatch word m = some (.keyed f)) : Blind f :=
  keyed_cases get_blind blind_overwritable del_blind blind_overwritable blind_onList_authw
    blind_onList_authw blind_onList_authw blind_onList_authw blind_onList_authr blind_onList_authw
    blind_onList_authw blind_overwritable blind_onSet_authw blind_onSet_authw blind_onSet_authw
    sort_blind hmake_blind blind_onHashmap_authw blind_onHashmap_authr blind_onHashmap_authr
    blind_onHashmap_authr blind_onHashmap_authw (setLevel_blind _) (setLevel_blind _) expire_blind
    getTtl_blind h

/-- **Both entries get one answer**, up to the level they look alike. -/
theorem handler_low {word : Str} {m : ℕ} {f : KeyHandler}
    (h : lookup dispatch word m = some (.keyed f)) {a : UInt8} (hc : c.auth ≤ a)
    {node node' : Option Kv} (hnode : Option.Rel (Kv.Low a) node node') : f c node = f c node' := by
  cases hnode with
  | none => rfl
  | @some n n' hn =>
    by_cases ha : n.authr ≤ a
    · rw [hn.eq ha]
    · refine handler_blind h c n n' hn.toAlike ?_ hn.ordered
      rw [UInt8.lt_iff_toNat_lt]
      rw [UInt8.le_iff_toNat_le] at hc ha
      omega

end Command

/-! ### Tables -/

/-- Related entries of one key. -/
def EntryRelated (R : Kv → Kv → Prop) (e e' : Str × Kv) : Prop := e.1 = e'.1 ∧ R e.2 e'.2

/-- The same chains of keys with related entries. -/
structure Hash.Related (R : Kv → Kv → Prop) (h h' : Hash) : Prop where
  chains : Buckets.Related (EntryRelated R) h.h h'.h
  portNum : h.portNum = h'.portNum
  startNum : h.startNum = h'.startNum
  endNum : h.endNum = h'.endNum

/-- The same chains of keys with entries that are alike up to the level `a`. -/
abbrev Hash.Low (a : UInt8) (h h' : Hash) : Prop := h.Related (Kv.Low a) h'

/-- Alike entries of one key. -/
abbrev EntryLow (a : UInt8) : Str × Kv → Str × Kv → Prop := EntryRelated (Kv.Low a)

namespace Hash

variable {a : UInt8} {h h' : Hash}

theorem entryLow_key (e e' : Str × Kv) (he : EntryLow a e e') : e.1 = e'.1 := he.1

theorem findNode_low (hl : h.Low a h') (k : Str) :
    Option.Rel (Kv.Low a) (h.findNode k) (h'.findNode k) := by
  have hfind : Option.Rel (EntryLow a) (Buckets.find slot Prod.fst h.h k)
      (Buckets.find slot Prod.fst h'.h k) := hl.chains.find entryLow_key k
  rw [Hash.findNode, Hash.findNode]
  generalize Buckets.find slot Prod.fst h.h k = o, Buckets.find slot Prod.fst h'.h k = o' at hfind ⊢
  cases hfind with
  | none => exact .none
  | some he => exact .some he.2

theorem findNode_eq_none_iff_low (hl : h.Low a h') (k : Str) :
    h.findNode k = none ↔ h'.findNode k = none := by
  have hnone : ∀ {o o' : Option Kv}, Option.Rel (Kv.Low a) o o' → (o = none ↔ o' = none) := by
    rintro _ _ (_ | _)
    · simp
    · simp
  exact hnone (findNode_low hl k)

theorem keys_eq_of_low (hl : h.Low a h') : h.keys = h'.keys := by
  rw [Hash.keys, Hash.keys, entries, entries, List.map_flatMap, List.map_flatMap]
  exact List.flatMap_congr fun i _ => Buckets.map_key_eq entryLow_key (hl.chains i)

/-- Two tables whose chains are alike, after an operation that keeps the rest. -/
theorem low_of_chains (hl : h.Low a h') {k l : Hash} (hc : Buckets.Related (EntryLow a) k.h l.h)
    (hk : k.portNum = h.portNum ∧ k.startNum = h.startNum ∧ k.endNum = h.endNum)
    (hl' : l.portNum = h'.portNum ∧ l.startNum = h'.startNum ∧ l.endNum = h'.endNum) :
    k.Low a l where
  chains := hc
  portNum := by rw [hk.1, hl'.1, hl.portNum]
  startNum := by rw [hk.2.1, hl'.2.1, hl.startNum]
  endNum := by rw [hk.2.2, hl'.2.2, hl.endNum]

/-- Overwriting makes alike entries equal but for what stays, which is alike. -/
theorem overwrite_low {n n' : Kv} (hn : n.Low a n') {v : Value} {r w : UInt8} (hrw : r ≤ w) :
    (n.overwrite v r w).Low a (n'.overwrite v r w) := by
  obtain ⟨hr, hw⟩ := Kv.overwrite_levels n v hrw
  obtain ⟨hr', hw'⟩ := Kv.overwrite_levels n' v hrw
  exact
    { dataDtype := rfl
      isUnset := rfl
      authr := by rw [hr, hr']
      authw := by rw [hw, hw']
      ttl := hn.ttl
      timer := hn.timer
      finished := hn.finished
      ordered := by rw [hr, hw]; exact hrw
      content := fun _ => rfl }

theorem alter_low (hl : h.Low a h') {k : Str} {f f' : Kv → Kv}
    (hf : ∀ n n', h.findNode k = some n → n.Low a n' → (f n).Low a (f' n')) :
    (h.alter k f).Low a (h'.alter k f') := by
  refine low_of_chains hl ?_ ⟨rfl, rfl, rfl⟩ ⟨rfl, rfl, rfl⟩
  refine hl.chains.alter entryLow_key fun e he e' hek hee' => ⟨hee'.1, hf _ _ ?_ hee'.2⟩
  rw [findNode_eq_some_iff, ← hek]
  exact List.mem_flatMap.mpr ⟨_, List.mem_finRange _, he⟩

/-- **One action on both tables** keeps them alike, or is a fault on both. -/
theorem apply_low (hl : h.Low a h') {c : Call} {k : Str} {act : KeyAction}
    (hact : Allowed c (h.findNode k) act) :
    Option.Rel (Hash.Low a) (h.apply k act) (h'.apply k act) := by
  have hfind := findNode_low hl k
  cases act with
  | keep => exact .some hl
  | del =>
    have herase := low_of_chains hl (k := { h with h := _, wf := h.wf.erase k })
      (l := { h' with h := _, wf := h'.wf.erase k }) (hl.chains.erase entryLow_key k)
      ⟨rfl, rfl, rfl⟩ ⟨rfl, rfl, rfl⟩
    rw [Hash.apply, Hash.apply, Hash.del, Hash.del]
    -- both tables have the key, with one type, or neither has it
    generalize h.findNode k = node, h'.findNode k = node' at hfind
    cases hfind with
    | none => exact .none
    | some hn =>
      simp only [hn.isUnset]
      split_ifs
      · exact .none
      · exact .some herase
  | set v r w =>
    have hrw : r ≤ w := hact.set_levels.1
    refine .some ?_
    rw [Hash.set, Hash.set]
    split
    next hf =>
      split
      next hf' =>
        refine low_of_chains hl ?_ ⟨rfl, rfl, rfl⟩ ⟨rfl, rfl, rfl⟩
        exact hl.chains.push entryLow_key ⟨rfl, Kv.Low.refl hrw⟩
      next n' hf' =>
        rw [(findNode_eq_none_iff_low hl k).mp hf] at hf'
        exact absurd hf' (by simp)
    next n hf =>
      split
      next hf' =>
        rw [(findNode_eq_none_iff_low hl k).mpr hf'] at hf
        exact absurd hf (by simp)
      next n' hf' => exact alter_low hl fun _ _ _ hn => overwrite_low hn hrw
  | write m =>
    refine .some (alter_low hl fun n n' hf hn => Kv.Low.refl ?_)
    rw [hf] at hact
    exact hact.ordered hn.ordered

end Hash

namespace Command

/-! ### Commands and runs -/

/-- `save`, `xsave` or `read`. -/
def usesFile (com : Str) : Bool :=
  match words com with
  | [word] => word = lit "save" || word = lit "xsave"
  | [word, _] => word = lit "read"
  | _ => false

/-- Results of two runs in step: one reply, and related tables. -/
def InStep {α : Type} (R : Kv → Kv → Prop) (r r' : α × World) : Prop :=
  r.1 = r'.1 ∧ r.2.h.Related R r'.2.h

variable {a : UInt8} {w w' : World}

theorem any_authr_low {node node' : Option Kv} (h : Option.Rel (Kv.Low a) node node')
    (auth : UInt8) :
    (node.any fun n => !(auth < n.authr)) = node'.any fun n => !(auth < n.authr) := by
  cases h with
  | none => rfl
  | some hn => rw [Option.any_some, Option.any_some, hn.authr]

theorem keys_low (hl : w.h.Low a w'.h) (auth : UInt8) : keys w.h auth = keys w'.h auth := by
  have hfilter := List.filter_congr (l := w'.h.keys) fun k _ =>
    any_authr_low (Hash.findNode_low hl k) auth
  rw [keys, keys, Hash.keys_eq_of_low hl, hfilter]

/-- Performing the actions of one answer. -/
theorem inStep_apply {act : KeyAction} {k msg : Str}
    (h : Option.Rel (Hash.Low a) (w.h.apply k act) (w'.h.apply k act)) :
    Option.Rel (InStep (Kv.Low a)) ((w.h.apply k act).map fun h => (msg, { w with h := h }))
      ((w'.h.apply k act).map fun h => (msg, { w' with h := h })) := by
  have hmap : ∀ {o o' : Option Hash}, Option.Rel (Hash.Low a) o o' →
      Option.Rel (InStep (Kv.Low a)) (o.map fun h => (msg, ({ w with h := h } : World)))
        (o'.map fun h => (msg, ({ w' with h := h } : World))) := by
    rintro _ _ (hlow | _)
    · exact .some ⟨rfl, hlow⟩
    · exact .none
  exact hmap h

/-- One command. -/
theorem execute_low (hl : w.h.Low a w'.h) {com : Str} {auth : UInt8} (ha : auth ≤ a)
    (hfile : usesFile com = false) (t : Int) :
    Option.Rel (InStep (Kv.Low a)) (execute com auth t w) (execute com auth t w') := by
  have hhere : notHere w.h = notHere w'.h := by
    funext k
    rw [notHere, notHere, hl.startNum, hl.endNum]
  rw [execute, execute]
  rw [usesFile] at hfile
  generalize words com = ws at hfile ⊢
  match ws with
  | [] => exact .some ⟨rfl, hl⟩
  | word :: args =>
    rw [executeWords, executeWords, hhere]
    split_ifs
    · exact .some ⟨rfl, hl⟩
    · exact .some ⟨rfl, hl⟩
    · cases hlook : lookup dispatch word (args.length + 1) with
      | none => exact .some ⟨rfl, hl⟩
      | some handler =>
        cases handler with
        | keyed f =>
          have hlow := handler_low hlook (c := ⟨args.headD [], args.tail, auth, t⟩) ha
            (Hash.findNode_low hl (args.headD []))
          simp only [Handler.run, ← hlow]
          cases hf : f ⟨args.headD [], args.tail, auth, t⟩ (w.h.findNode (args.headD [])) with
          | none => exact .none
          -- the two answers are one answer, so one action is performed on both tables
          | some r =>
            have happ := Hash.apply_low hl (handler_sound hlook _ _ r.1 r.2 hf)
            exact inStep_apply happ
        | keys =>
          have hkeys := keys_low hl auth
          simp only [Handler.run, hkeys]
          exact .some ⟨rfl, hl⟩
        | save =>
          rcases eq_save_of_lookup hlook with hws | hws
          · rw [hws] at hfile
            exact absurd hfile (by decide)
          · rw [hws] at hfile
            exact absurd hfile (by decide)
        | read =>
          obtain ⟨pw, hws⟩ := eq_read_of_lookup hlook
          rw [hws] at hfile
          exact absurd hfile (by simp)

/-- **Read protection.**  On tables that are alike up to `a`, a run of commands with authorities at
most `a`, none of them `save`, `xsave` or `read`, gives the same replies and leaves tables that are
alike up to `a`, or faults on both. -/
theorem runAll_low (hl : w.h.Low a w'.h) {rs : List Request}
    (hrs : ∀ r ∈ rs, r.auth ≤ a ∧ usesFile r.com = false) :
    Option.Rel (InStep (Kv.Low a)) (runAll rs w) (runAll rs w') := by
  induction rs generalizing w w' with
  | nil => exact .some ⟨rfl, hl⟩
  | cons r rs ih =>
    obtain ⟨⟨ha, hfile⟩, hrs⟩ := List.forall_mem_cons.mp hrs
    have hstep := execute_low hl ha hfile r.currTime
    rw [runAll, runAll]
    generalize execute r.com r.auth r.currTime w = o, execute r.com r.auth r.currTime w' = o'
      at hstep ⊢
    cases hstep with
    | none => exact .none
    | @some x x' hx =>
      have hrest := ih hx.2 hrs
      simp only [Option.bind_some]
      generalize runAll rs x.2 = p, runAll rs x'.2 = p' at hrest ⊢
      cases hrest with
      | none => exact .none
      | some hy => exact .some ⟨by simp only [hx.1, hy.1], hy.2⟩

/-- A table with one string of read level `5`. -/
def secret (s : Str) : World where
  h := (Hash.new 8000).set (lit "k") (.string s) 5 5
  csv := none
  writable := true

/-- Two contents that a session of authority `4` cannot tell apart. -/
theorem runAll_low_secret :
    (secret (lit "x")).h.findNode (lit "k") ≠ (secret (lit "y")).h.findNode (lit "k") ∧
    Option.Rel (InStep (Kv.Low 4)) (runAll [⟨lit "get k", 4, 0⟩, ⟨lit "keys", 4, 1⟩] (secret (lit "x")))
      (runAll [⟨lit "get k", 4, 0⟩, ⟨lit "keys", 4, 1⟩] (secret (lit "y"))) := by
  have hlow : (secret (lit "x")).h.Low 4 (secret (lit "y")).h := by
    refine ⟨?_, rfl, rfl, rfl⟩
    have hnew : Buckets.Related (EntryLow 4) (Hash.new 8000).h (Hash.new 8000).h := fun _ => .nil
    exact hnew.push Hash.entryLow_key
      ⟨rfl, ⟨⟨rfl, rfl, rfl, rfl, rfl, rfl⟩, by decide, fun h => absurd h (by decide)⟩, rfl⟩
  refine ⟨?_, runAll_low hlow ?_⟩
  · rw [secret, secret, Hash.findNode_set, Hash.findNode_set]
    simp [Hash.setEntry, lit]
    decide
  · simp only [List.forall_mem_cons, List.not_mem_nil]
    exact ⟨⟨by decide, by decide⟩, ⟨by decide, by decide⟩, by simp⟩

/-- A table with one value of read level `5`, which lives for a second. -/
def shortLived (v : Value) : World where
  h := { Hash.new 8000 with
    h := Buckets.push Hash.slot Prod.fst (Hash.new 8000).h
      (lit "k", { v := v, ttl := 1, authr := 5, authw := 5 })
    wf := (Hash.new 8000).wf.push rfl }
  csv := none
  writable := true

theorem shortLived_related {R : Kv → Kv → Prop} {v v' : Value}
    (hv : R { v := v, ttl := 1, authr := 5, authw := 5 } { v := v', ttl := 1, authr := 5, authw := 5 }) :
    (shortLived v).h.Related R (shortLived v').h := by
  have hnew : Buckets.Related (EntryRelated R) (Hash.new 8000).h (Hash.new 8000).h := fun _ => .nil
  exact ⟨hnew.push (fun _ _ he => he.1) ⟨rfl, hv⟩, rfl, rfl, rfl⟩

/-- **A default value is told apart from a string.**  When the entry is expired its lookup deletes it,
and only the default value has an address that faults. -/
theorem not_runAll_low_unset : ¬ ∀ (a : UInt8) (w w' : World) (rs : List Request),
    w.h.Related (Kv.Shown a) w'.h → (∀ r ∈ rs, r.auth ≤ a ∧ usesFile r.com = false) →
      (rs.map Request.currTime).Pairwise (· ≤ ·) →
        Option.Rel (InStep (Kv.Shown a)) (runAll rs w) (runAll rs w') := by
  intro h
  have hshown : (shortLived (.string [])).h.Related (Kv.Shown 4) (shortLived .unset).h :=
    shortLived_related ⟨⟨rfl, rfl, rfl, rfl, rfl, rfl⟩, by decide, fun ha => absurd ha (by decide)⟩
  have hrun := h 4 _ _ [⟨lit "get k", 4, 2⟩] hshown (by simpa [usesFile] using by decide) (by simp)
  have hsome : (runAll [⟨lit "get k", 4, 2⟩] (shortLived (.string []))).isSome := rfl
  have hnone : runAll [⟨lit "get k", 4, 2⟩] (shortLived .unset) = none := rfl
  rw [hnone] at hrun
  generalize runAll [⟨lit "get k", 4, 2⟩] (shortLived (.string [])) = o at hrun hsome
  cases hrun
  exact Bool.false_ne_true hsome

end Command

end MuseKv
