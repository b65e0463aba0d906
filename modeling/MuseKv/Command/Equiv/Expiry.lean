import MuseKv.Command.Equiv.Isolation
import MuseKv.Command.Equiv.Stored

/-!
# The lifetime of an entry

Of the commands on a live entry, only `expire` changes its lifetime, and only `del` removes it (`Lasting`,
one lemma for each handler): an entry that is overwritten or changed keeps the lifetime it had.  So what
`expire` sets is what `ttl` counts down, whatever is done to the entry in between, and at its end the entry
is gone (**`runAll_expire`**).
-/

namespace MuseKv.Command

open General Kvstore

variable {n n' n₀ : Kv} {c : Call} {ws : List Str} {auth : UInt8} {t : Int} {k msg : Str}
  {rs : List Request} {w w' : World} {replies : List Str}

/-- The same lifetime. -/
def SameLife (n n' : Kv) : Prop := n'.ttl = n.ttl ∧ n'.timer = n.timer ∧ n'.finished = n.finished

theorem SameLife.isExpired (h : SameLife n n') (t : Int) : n'.isExpired t = n.isExpired t := by
  rw [Kv.isExpired, Kv.isExpired, h.1, h.2.1, h.2.2]

theorem SameLife.trans (h : SameLife n₀ n) (h' : SameLife n n') : SameLife n₀ n' :=
  ⟨h'.1.trans h.1, h'.2.1.trans h.2.1, h'.2.2.trans h.2.2⟩

/-- An action leaves the entry, with its lifetime. -/
def Retains (n : Kv) (_ : Str) (a : KeyAction) : Prop :=
  ∃ n', a.perform (some n) = some (some n') ∧ SameLife n n'

theorem retains_keep (msg : Str) : Retains n msg .keep := ⟨n, rfl, rfl, rfl, rfl⟩

theorem retains_set (msg : Str) (v : Value) (r w : UInt8) : Retains n msg (.set v r w) :=
  ⟨_, rfl, n.overwrite_ttl v r w⟩

theorem retains_setV (msg : Str) (v : Value) : Retains n msg (.write (n.setV v)) :=
  ⟨_, rfl, rfl, rfl, rfl⟩

/-! ### The handlers -/

/-- A handler that leaves a live entry its lifetime. -/
def Lasting (f : KeyHandler) : Prop :=
  ∀ c n, n.isExpired c.currTime = false → Answers (Retains n) (f c (some n))

theorem lasting_live {body : Call → Kv → Result} (h : ∀ c n, n.isExpired c.currTime = false →
    Answers (Retains n) (body c n)) : Lasting fun c node => live c node (body c) := by
  intro c n hlive
  dsimp only
  rw [live_of_not_expired hlive]
  exact h c n hlive

theorem retains_permitted {level : UInt8} {body : Result} (h : Answers (Retains n) body) :
    Answers (Retains n) (permitted c level body) := .permitted (retains_keep _) fun _ => h

theorem lasting_onList {level : Kv → UInt8} {body : Call → Kv → List Str → Result}
    (h : ∀ c n l, Answers (Retains n) (body c n l)) :
    Lasting fun c node => onList c level node (body c) := by
  refine lasting_live fun c n _ => ?_
  split
  next l _ => exact retains_permitted (h c n l)
  next => exact .act (retains_keep _)

theorem lasting_onSet {level : Kv → UInt8} {body : Call → Kv → Hashset → Result}
    (h : ∀ c n s, Answers (Retains n) (body c n s)) :
    Lasting fun c node => onSet c level node (body c) := by
  refine lasting_live fun c n _ => ?_
  split
  next s _ => exact retains_permitted (h c n s)
  next => exact .act (retains_keep _)

theorem lasting_onHashmap {level : Kv → UInt8} {body : Call → Kv → Hashmap → Result}
    (h : ∀ c n m, Answers (Retains n) (body c n m)) :
    Lasting fun c node => onHashmap c level node (body c) := by
  refine lasting_live fun c n _ => ?_
  split
  next m _ => exact retains_permitted (h c n m)
  next => exact .act (retains_keep _)

theorem get_lasting : Lasting get :=
  lasting_live fun _ _ _ => retains_permitted (.map fun _ _ => retains_keep _)

theorem make_lasting : Lasting make := by
  intro c n _
  refine .overwritable (retains_keep _) ?_
  split
  next => exact .act (retains_set ..)
  next =>
    exact .withInt (retains_keep _) fun _ _ => .ite (fun _ => .act (retains_keep _)) fun _ =>
      .withinAuth (retains_keep _) fun _ => .act (retains_set ..)
  next =>
    split
    next =>
      exact .ite (fun _ => .act (retains_keep _)) fun _ => .ite (fun _ => .act (retains_keep _)) fun _ =>
        .withinAuth (retains_keep _) fun _ => .withinAuth (retains_keep _) fun _ =>
          .ite (fun _ => .act (retains_keep _)) fun _ => .act (retains_set ..)
    next => exact .fault
  next => exact .fault

theorem lmake_lasting : Lasting lmake := fun _ _ _ =>
  .overwritable (retains_keep _) (.map fun _ _ => retains_set ..)

theorem smake_lasting : Lasting smake := fun _ _ _ =>
  .overwritable (retains_keep _) (.map fun _ _ => retains_set ..)

theorem hmake_lasting : Lasting hmake := fun _ _ _ =>
  .ite (fun _ => .act (retains_keep _)) fun _ =>
    .overwritable (retains_keep _) (.map fun _ _ => retains_set ..)

theorem lpush_lasting : Lasting lpush := lasting_onList fun _ _ _ => .act (retains_setV ..)

theorem rpush_lasting : Lasting rpush := lasting_onList fun _ _ _ => .act (retains_setV ..)

theorem popList_lasting (pop : List Str → Str × List Str) : Lasting (popList pop) :=
  lasting_onList fun _ _ _ => .ite (fun _ => .act (retains_keep _)) fun _ => .act (retains_setV ..)

theorem lget_lasting : Lasting lget :=
  lasting_onList fun _ _ _ => .ite (fun _ => .act (retains_keep _)) fun _ =>
    .withInt (retains_keep _) fun _ _ => .map fun _ _ => retains_keep _

theorem lset_lasting : Lasting lset :=
  lasting_onList fun _ _ _ => .ite (fun _ => .act (retains_keep _)) fun _ =>
    .withInt (retains_keep _) fun _ _ => .map fun _ _ => retains_setV ..

theorem lerase_lasting : Lasting lerase :=
  lasting_onList fun _ _ _ => .ite (fun _ => .act (retains_keep _)) fun _ =>
    .withInt (retains_keep _) fun _ _ => .act (retains_setV ..)

theorem spush_lasting : Lasting spush := lasting_onSet fun _ _ _ => .act (retains_setV ..)

theorem spop_lasting : Lasting spop :=
  lasting_onSet fun _ _ _ => .ite (fun _ => .act (retains_keep _)) fun _ => .act (retains_setV ..)

theorem serase_lasting : Lasting serase :=
  lasting_onSet fun _ _ _ => .ite (fun _ => .act (retains_keep _)) fun _ => .act (retains_setV ..)

theorem sort_lasting : Lasting sort := by
  refine lasting_live fun c n _ => ?_
  split
  next => exact retains_permitted (.map fun _ _ => retains_keep _)
  next => exact retains_permitted (.map fun _ _ => retains_keep _)
  next => exact .act (retains_keep _)

theorem hpush_lasting : Lasting hpush := lasting_onHashmap fun _ _ _ => .act (retains_setV ..)

theorem hget_lasting : Lasting hget :=
  lasting_onHashmap fun _ _ _ => .ite (fun _ => .act (retains_keep _)) fun _ =>
    .ite (fun _ => .act (retains_keep _)) fun _ => .act (retains_keep _)

theorem listing_lasting (text : Hashmap → Str) : Lasting (listing text) :=
  lasting_onHashmap fun _ _ _ => .ite (fun _ => .act (retains_keep _)) fun _ => .act (retains_keep _)

theorem herase_lasting : Lasting herase := by
  refine lasting_onHashmap fun _ _ _ => .ite (fun _ => .act (retains_keep _)) fun _ => ?_
  split
  next => exact .act (retains_keep _)
  next => exact .map fun _ _ => retains_setV ..

theorem setLevel_lasting {mutator : Kv → UInt8 → Kv} (h : ∀ n x, SameLife n (mutator n x)) :
    Lasting (setLevel mutator) := fun _ _ _ =>
  .withInt (retains_keep _) fun _ _ => .ite (fun _ => .act (retains_keep _)) fun _ =>
    .withinAuth (retains_keep _) fun _ => retains_permitted (.act ⟨_, rfl, h _ _⟩)

/-- `ttl` marks expired entries alone. -/
theorem getTtl_lasting : Lasting getTtl :=
  lasting_live fun _ _ hlive => retains_permitted <| .act ⟨_, rfl, by
    rw [Kv.getTtl_of_not_expired hlive]
    exact ⟨rfl, rfl, rfl⟩⟩

/-- The words of the commands that end a lifetime. -/
def lifeWords : List Str := [lit "expire", lit "del"]

/-- **Every other command leaves a live entry its lifetime.** -/
theorem lasting_of_lookup {word : Str} {m : ℕ} {f : KeyHandler}
    (hlook : lookup dispatch word m = some (.keyed f)) (hword : word ∉ lifeWords) : Lasting f := by
  have hall : ∀ row ∈ dispatch, ∀ f, row.2.2 = .keyed f → row.1 ∈ lifeWords ∨ Lasting f := by
    simp only [dispatch, List.forall_mem_cons, Handler.keyed.injEq, forall_eq', reduceCtorEq,
      IsEmpty.forall_iff, implies_true, true_and, List.not_mem_nil, and_true]
    exact ⟨.inr get_lasting, .inr make_lasting, .inr make_lasting, .inr make_lasting, .inl (by decide),
      .inr lmake_lasting, .inr lpush_lasting, .inr rpush_lasting, .inr (popList_lasting _),
      .inr (popList_lasting _), .inr lget_lasting, .inr lset_lasting, .inr lerase_lasting,
      .inr smake_lasting, .inr spush_lasting, .inr spop_lasting, .inr serase_lasting,
      .inr sort_lasting, .inr hmake_lasting, .inr hpush_lasting, .inr hget_lasting,
      .inr (listing_lasting _), .inr (listing_lasting _), .inr herase_lasting,
      .inr (setLevel_lasting fun _ _ => ⟨rfl, rfl, rfl⟩),
      .inr (setLevel_lasting fun _ _ => ⟨rfl, rfl, rfl⟩), .inl (by decide), .inr getTtl_lasting⟩
  obtain ⟨arity, hmem, -⟩ := lookup_eq_some hlook
  exact (hall _ hmem f rfl).resolve_left hword

/-! ### One command -/

/-- The words of a command that does not end a lifetime. -/
def Sparing (ws : List Str) : Prop := ∀ word ∈ ws.head?, word ∉ lifeWords

theorem keyResult_lasting {a : KeyAction} (hws : Sparing ws) (hlive : n.isExpired t = false)
    (h : keyResult ws auth t (some n) = some (msg, a)) : Retains n msg a := by
  rcases keyResult_cases ws auth t with hinvalid | ⟨word, k, args, f, rfl, hlook, hf⟩
  · obtain ⟨-, rfl⟩ := Prod.mk.inj (Option.some.inj (h.symm.trans (hinvalid (some n))))
    exact retains_keep msg
  · rw [hf] at h
    exact lasting_of_lookup hlook (hws word rfl) _ n hlive msg a h

/-- **One command** that does not end the lifetime of a live entry leaves it its lifetime. -/
theorem keyEffect_lasting {node : Option Kv} (hws : Sparing ws) (hlive : n.isExpired t = false)
    (hset : n.v.isUnset = false) (h : keyEffect ws auth t (some n) = some (msg, node)) :
    ∃ n', node = some n' ∧ SameLife n n' ∧ n'.v.isUnset = false := by
  have hfilled := keyEffect_filled h fun m hm => Option.some.inj hm ▸ hset
  obtain ⟨⟨msg', a⟩, hresult, h⟩ := Option.bind_eq_some_iff.mp h
  obtain ⟨node', hperform, heq⟩ := Option.map_eq_some_iff.mp h
  obtain ⟨rfl, rfl⟩ := Prod.mk.inj heq
  obtain ⟨n', hn', hlife⟩ := keyResult_lasting hws hlive hresult
  obtain rfl := Option.some.inj (hperform.symm.trans hn')
  exact ⟨n', rfl, hlife, hfilled n' rfl⟩

/-! ### Runs -/

theorem fold_lasting {h : Hash} {l : List Str} {v : Option Kv × List Str} (hset : n.v.isUnset = false)
    (hrs : ∀ r ∈ rs, Sparing (words r.com) ∧ n.isExpired r.currTime = false)
    (hfold : (keyed h).fold rs (some n, l) = some v) :
    ∃ n', v.1 = some n' ∧ SameLife n n' ∧ n'.v.isUnset = false := by
  induction rs generalizing n l with
  | nil =>
    obtain rfl := Option.some.inj hfold
    exact ⟨n, rfl, ⟨rfl, rfl, rfl⟩, hset⟩
  | cons r rs ih =>
    obtain ⟨hws, hlive⟩ := hrs r (List.mem_cons_self ..)
    have hrest := fun r hr => hrs r (List.mem_cons_of_mem _ hr)
    obtain ⟨x, hx, hfold⟩ := Option.bind_eq_some_iff.mp hfold
    rw [keyed] at hx
    dsimp only at hx
    split_ifs at hx
    · -- a node that refuses the key leaves its entry
      obtain rfl := Option.some.inj hx
      exact ih hset hrest hfold
    · obtain ⟨⟨msg, node⟩, heffect, rfl⟩ := Option.map_eq_some_iff.mp hx
      obtain ⟨n₁, rfl, hlife₁, hset₁⟩ := keyEffect_lasting hws hlive hset heffect
      obtain ⟨n', hn', hlife', hset'⟩ := ih hset₁
        (fun r hr => ⟨(hrest r hr).1, (hlife₁.isExpired _).trans (hrest r hr).2⟩) hfold
      exact ⟨n', hn', hlife₁.trans hlife', hset'⟩

/-- Whatever a run does to a live entry but to end its lifetime, the lifetime goes on. -/
theorem runAll_lasting (hord : ∀ r ∈ rs, Ordinary (words r.com))
    (hrun : runAll rs w = some (replies, w')) (hk : w.h.findNode k = some n) (hset : n.v.isUnset = false)
    (hrs : ∀ r ∈ naming k rs, Sparing (words r.com) ∧ n.isExpired r.currTime = false) :
    ∃ n', w'.h.findNode k = some n' ∧ SameLife n n' ∧ n'.v.isUnset = false := by
  have hkey := Keyed.run_eq_some_iff.mp (runAll_keyed (l := fun _ => []) hord hrun) k
  have hview : view w (fun _ => []) k = (some n, []) := by rw [view, hk]
  rw [hview] at hkey
  exact fold_lasting hset hrs hkey

/-! ### From `expire` to `ttl` -/

/-- An entry with the lifetime `d` since `t₀`. -/
structure Lives (n : Kv) (t₀ d : Int) : Prop where
  ttl : n.ttl = d
  timer : n.timer = t₀
  finished : n.finished = false

theorem Lives.isExpired {t₀ d : Int} (h : Lives n t₀ d) (hd : d ≠ -1) (t : Int) :
    n.isExpired t = false ↔ t - t₀ < d := by
  rw [Kv.isExpired, h.ttl, h.timer, h.finished, if_neg Bool.false_ne_true, if_neg hd]
  split_ifs with hlt
  · exact iff_of_true rfl hlt
  · exact iff_of_false (by simp) hlt

theorem SameLife.lives {t₀ d : Int} (h : SameLife n n') (hn : Lives n t₀ d) : Lives n' t₀ d :=
  ⟨h.1.trans hn.ttl, h.2.1.trans hn.timer, h.2.2.trans hn.finished⟩

/-- `expire`, where it is confirmed. -/
theorem executeWords_expire {arg : Str} {t₀ d : Int} {w₁ : World} (hk : w.h.findNode k = some n)
    (hd : strtoint arg = some (true, d))
    (h : executeWords [lit "expire", k, arg] auth t₀ w = some (confirmMsg, w₁)) :
    notHere w.h k = false ∧ n.isExpired t₀ = false ∧ OnlyKey k w w₁ ∧
      w₁.h.findNode k = some (n.setTtl d t₀) := by
  cases hhere : notHere w.h k with
  | true =>
    rw [executeWords, if_neg (by decide), if_pos (by simpa using hhere)] at h
    exact absurd (List.cons.inj (Prod.mk.inj (Option.some.inj h)).1).1 (by decide)
  | false =>
    rw [executeWords_keyed (f := expire) (by decide) hhere rfl, hk] at h
    obtain ⟨⟨msg, a⟩, hr, h⟩ := Option.bind_eq_some_iff.mp h
    obtain ⟨h', hh', heq⟩ := Option.map_eq_some_iff.mp h
    obtain ⟨rfl, rfl⟩ := Prod.mk.inj heq
    have hresult : withInt arg invalidTime (fun timeEx => live ⟨k, [arg], auth, t₀⟩ (some n) fun n =>
        permitted ⟨k, [arg], auth, t₀⟩ n.authw (some (confirmMsg, .write (n.setTtl timeEx t₀)))) =
        some (confirmMsg, a) := hr
    rw [withInt, hd] at hresult
    dsimp only at hresult
    cases hexp : n.isExpired t₀ with
    | true =>
      rw [live_of_expired hexp] at hresult
      exact absurd (Prod.mk.inj (Option.some.inj hresult)).1 (noSuchKey_ne k)
    | false =>
      rw [live_of_not_expired hexp, permitted] at hresult
      split_ifs at hresult
      · exact absurd (Prod.mk.inj (Option.some.inj hresult)).1 (by decide)
      · obtain ⟨-, rfl⟩ := Prod.mk.inj (Option.some.inj hresult)
        obtain ⟨hport, hstart, hend⟩ := Hash.apply_bounds hh'
        refine ⟨rfl, rfl, ⟨fun k' hk' => ?_, hport, hstart, hend, rfl, rfl⟩, ?_⟩
        · exact (Hash.findNode_apply hh' k').trans (if_neg hk')
        · rw [Hash.findNode_apply hh', if_pos rfl, hk]
          rfl

theorem Lives.getTtl {t₀ d : Int} (h : Lives n t₀ d) (hd : d ≠ -1) (ht : t - t₀ < d)
    (hint : d - (t - t₀) < 2 ^ 31) : n.getTtl t = (d - (t - t₀), n) := by
  rw [Kv.getTtl, h.ttl, h.timer, if_neg hd, if_neg (by rw [(h.isExpired hd t).mpr ht]; simp), doubleToInt,
    if_pos ⟨by omega, hint⟩]

/-- `ttl` on an entry with a lifetime. -/
theorem executeWords_ttl {t₀ d : Int} (hk : w.h.findNode k = some n) (hhere : notHere w.h k = false)
    (hset : n.v.isUnset = false) (hn : Lives n t₀ d) (hd : d ≠ -1)
    (hauth : t - t₀ < d → n.authr ≤ auth ∧ d - (t - t₀) < 2 ^ 31) :
    ∃ w', executeWords [lit "ttl", k] auth t w =
        some (if t - t₀ < d then toStr (d - (t - t₀)) else noSuchKey k, w') ∧
      w'.h.findNode k = if t - t₀ < d then some n else none := by
  rw [executeWords_keyed (f := getTtl) (by decide) hhere rfl, hk]
  by_cases ht : t - t₀ < d
  · have hreply : getTtl ⟨k, [], auth, t⟩ (some n) = some (toStr (d - (t - t₀)), .write n) := by
      rw [getTtl, live_of_not_expired ((hn.isExpired hd t).mpr ht),
        permitted_of_le (c := ⟨k, [], auth, t⟩) (hauth ht).1]
      dsimp only
      rw [hn.getTtl hd ht (hauth ht).2]
    obtain ⟨h', hh'⟩ := Option.isSome_iff_exists.mp (w.h.apply_isSome k (.write n))
    have hnode := Hash.findNode_apply hh' k
    rw [if_pos rfl, hk] at hnode
    rw [hreply, Option.bind_some, hh', if_pos ht, if_pos ht]
    exact ⟨_, rfl, hnode⟩
  · have hexp : n.isExpired t = true := by
      rw [← Bool.not_eq_false, hn.isExpired hd t]
      exact ht
    have hreply : getTtl ⟨k, [], auth, t⟩ (some n) = some (noSuchKey k, .del) :=
      live_of_expired (c := ⟨k, [], auth, t⟩) hexp _
    obtain ⟨h', hh'⟩ := Hash.del_isSome hk hset
    have hnode := Hash.findNode_apply (a := .del) hh' k
    rw [if_pos rfl] at hnode
    rw [hreply, Option.bind_some, if_neg ht, if_neg ht]
    change ∃ w', ((w.h.del k).map _) = _ ∧ _
    rw [hh']
    exact ⟨_, rfl, hnode⟩

theorem notHere_runAll (hord : ∀ r ∈ rs, Ordinary (words r.com))
    (hrun : runAll rs w = some (replies, w')) : notHere w'.h k = notHere w.h k :=
  runAll_invariant (P := fun v => notHere v.h k = notHere w.h k)
    (fun r hr _ _ _ hv hexec =>
      ((execute_keyed (l := fun _ => []) (hord r hr) hexec).2.notHere k).trans hv) rfl hrun

/-- **A lifetime runs from `expire` to its end.**  Where `expire` is confirmed, and the commands on the key
that follow, other than `expire` and `del`, come while it lasts, the entry has what is left of it then, be it
read, changed or overwritten: `ttl` counts it down, as long as the rest is an `int`, and at its end replies
that there is no such key and removes the entry. -/
theorem runAll_expire {com arg : Str} {t₀ d : Int} {w₁ : World} (hk : w.h.findNode k = some n)
    (hset : n.v.isUnset = false) (hws : words com = [lit "expire", k, arg])
    (hd : strtoint arg = some (true, d)) (hd' : d ≠ -1)
    (hexpire : execute com auth t₀ w = some (confirmMsg, w₁))
    (hord : ∀ r ∈ rs, Ordinary (words r.com)) (hrun : runAll rs w₁ = some (replies, w'))
    (hrs : ∀ r ∈ naming k rs, Sparing (words r.com) ∧ r.currTime - t₀ < d) :
    ∃ n', w'.h.findNode k = some n' ∧ ∀ com' auth' t, words com' = [lit "ttl", k] →
      (t - t₀ < d → n'.authr ≤ auth' ∧ d - (t - t₀) < 2 ^ 31) →
      ∃ w'', execute com' auth' t w' =
          some (if t - t₀ < d then toStr (d - (t - t₀)) else noSuchKey k, w'') ∧
        w''.h.findNode k = if t - t₀ < d then some n' else none := by
  obtain ⟨hhere, hlive, honly, hk₁⟩ := executeWords_expire hk hd (by rwa [execute, hws] at hexpire)
  have hfin : n.finished = false := by
    cases hfin : n.finished with
    | false => rfl
    | true => rw [Kv.isExpired, hfin] at hlive; exact absurd hlive (by simp)
  have hn₁ : Lives (n.setTtl d t₀) t₀ d := ⟨rfl, rfl, hfin⟩
  obtain ⟨n', hn', hlife, hset'⟩ := runAll_lasting hord hrun hk₁ hset fun r hr =>
    ⟨(hrs r hr).1, (hn₁.isExpired hd' _).mpr (hrs r hr).2⟩
  refine ⟨n', hn', fun com' auth' t hws' hauth => ?_⟩
  rw [execute, hws']
  have hhere' : notHere w'.h k = false := by rw [notHere_runAll hord hrun, honly.notHere, hhere]
  exact executeWords_ttl hn' hhere' hset' (hlife.lives hn₁) hd' hauth

/-- A table with a text under `k`. -/
def aText : World where
  h := (Hash.new 8000).set (lit "k") (.string (lit "v")) 0 0
  csv := none
  writable := true

/-- The text is replaced, and another one is made. -/
def textRun : List Request := [⟨lit "make k x", 0, 3⟩, ⟨lit "make j y", 0, 20⟩]

theorem textRun_ordinary : ∀ r ∈ textRun, Ordinary (words r.com) := by
  simp only [textRun, List.forall_mem_cons]
  rw [show words (lit "make k x") = [lit "make", lit "k", lit "x"] by decide,
    show words (lit "make j y") = [lit "make", lit "j", lit "y"] by decide]
  exact ⟨ordinary_of_lookup (f := make) (by decide) rfl,
    ordinary_of_lookup (f := make) (by decide) rfl, by simp⟩

/-- The new text has the rest of the old one's lifetime. -/
theorem runAll_expire_text : ∃ w₁ replies w', execute (lit "expire k 10") 0 0 aText = some (confirmMsg, w₁) ∧
    runAll textRun w₁ = some (replies, w') ∧
    (∃ w'', execute (lit "ttl k") 255 4 w' = some (lit "6", w'')) ∧
    ∃ w'', execute (lit "ttl k") 0 10 w' = some (noSuchKey (lit "k"), w'') ∧
      w''.h.findNode (lit "k") = none := by
  have hk : aText.h.findNode (lit "k") = some ⟨.string (lit "v"), -1, 0, false, 0, 0⟩ := by
    rw [aText, Hash.findNode_set]
    rfl
  obtain ⟨w₁, hexpire, replies, w', hrun⟩ : ∃ w₁,
      execute (lit "expire k 10") 0 0 aText = some (confirmMsg, w₁) ∧
      ∃ replies w', runAll textRun w₁ = some (replies, w') := ⟨_, rfl, _, _, rfl⟩
  have hnaming : naming (lit "k") textRun = [⟨lit "make k x", 0, 3⟩] := rfl
  have hspares : ∀ r ∈ naming (lit "k") textRun, Sparing (words r.com) ∧ r.currTime - 0 < 10 := by
    rw [hnaming]
    simp only [List.forall_mem_cons]
    refine ⟨⟨fun word hword => ?_, by decide⟩, by simp⟩
    obtain rfl : lit "make" = word := Option.some.inj hword
    decide
  have hcom : words (lit "expire k 10") = [lit "expire", lit "k", lit "10"] := by decide
  obtain ⟨n', -, httl⟩ := runAll_expire (d := 10) hk rfl hcom rfl (by decide) hexpire textRun_ordinary
    hrun hspares
  have hws : words (lit "ttl k") = [lit "ttl", lit "k"] := by decide
  have hany : n'.authr ≤ 255 := UInt8.le_iff_toNat_le.mpr (by
    have hlt := n'.authr.toNat_lt
    simp only [UInt8.reduceToNat]
    omega)
  obtain ⟨w₂, hlive, -⟩ := httl (lit "ttl k") 255 4 hws fun _ => ⟨hany, by norm_num⟩
  obtain ⟨w₃, hgone, hnone⟩ := httl (lit "ttl k") 0 10 hws fun h => absurd h (by decide)
  exact ⟨w₁, replies, w', hexpire, hrun, ⟨w₂, hlive⟩, w₃, hgone, hnone⟩

end MuseKv.Command
