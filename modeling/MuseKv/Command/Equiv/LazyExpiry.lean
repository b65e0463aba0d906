import MuseKv.Command.Equiv.Answers
import MuseKv.Command.Equiv.Purge

/-!
# Where lazy expiry shows

On a live entry a command does the same with and without the expired entries.  On an expired one, it
depends on the handler (`Tested`, one lemma for each family): those that test the expiry collect the
entry, `make` and its like overwrite it and it stays expired, and `del`, `authr` and `authw` still see
it (`keyed_invisible_iff`).
-/

namespace MuseKv

open General Kvstore

namespace Command

variable {w : World} {k : Str} {n : Kv} {t : Int} {m m' : Str} {a : KeyAction} {r r' : Result}
  {c : Call} {arity : Arity}

/-! ### Results on the table and on the purged one -/

/-- What a result under a key does to a table. -/
def keyedRun (w : World) (k : Str) (r : Result) : Option (Str × World) :=
  r.bind fun x => (w.h.apply k x.2).map fun h => (x.1, { w with h := h })

/-- A result on the table and one on the purged table differ in expired entries only. -/
def Hides (t : Int) (w : World) (k : Str) (r r' : Result) : Prop :=
  Option.Rel (SameLive t) (keyedRun w k r) (keyedRun (w.purge t) k r')

theorem rel_map {α β γ δ : Type} {R : α → β → Prop} {S : γ → δ → Prop} {x : Option α} {y : Option β}
    {f : α → γ} {g : β → δ} (h : Option.Rel R x y) (hfg : ∀ a b, R a b → S (f a) (g b)) :
    Option.Rel S (x.map f) (y.map g) := by
  cases h with
  | none => exact .none
  | some hab => exact .some (hfg _ _ hab)

/-- On a live entry a result does the same. -/
theorem hides_of_live (hlive : ∀ n, w.h.findNode k = some n → n.isExpired t = false) (r : Result) :
    Hides t w k r r := by
  cases r with
  | none => exact .none
  | some x => exact rel_map (Hash.apply_purge hlive x.2) fun _ _ hpurge => ⟨rfl, hpurge, rfl⟩

/-- Two replies without an action. -/
theorem hides_reply_iff : Hides t w k (reply m) (reply m') ↔ m = m' := by
  constructor
  · intro h
    cases h with
    | some h => exact h.1
  · rintro rfl
    exact .some ⟨rfl, (Hash.purge_purge w.h t).symm, rfl⟩

/-- An expired entry that is removed. -/
theorem hides_del_iff (hk : w.h.findNode k = some n) (hexp : n.isExpired t = true) :
    Hides t w k (some (m, .del)) (reply m) ↔ n.v.isUnset = false := by
  have hrun : keyedRun w k (some (m, .del)) = (w.h.del k).map fun h => (m, { w with h := h }) := rfl
  rw [Hides, hrun]
  rcases Hash.del_of_expired hk hexp with ⟨hdel, hv⟩ | ⟨h', hdel, hv, hpurge⟩
  · rw [hdel, hv]
    exact iff_of_false (fun h => nomatch h) (by simp)
  · rw [hdel, hv]
    exact iff_of_true (.some ⟨rfl, hpurge.trans (Hash.purge_purge w.h t).symm, rfl⟩) rfl

/-- Another reply shows. -/
theorem not_hides_of_reply (h : ∀ msg a, r = some (msg, a) → msg ≠ m') :
    ¬ Hides t w k r (reply m') := by
  intro hh
  cases r with
  | none => exact nomatch hh
  | some x =>
    have hrun : keyedRun w k (some x) = (w.h.apply k x.2).map fun h => (x.1, { w with h := h }) := rfl
    rw [Hides, hrun] at hh
    cases hx : w.h.apply k x.2 with
    | none =>
      rw [hx] at hh
      exact nomatch hh
    | some h' =>
      rw [hx] at hh
      cases hh with
      | some hsame => exact h x.1 x.2 rfl hsame.1

/-- An entry that is set anew shows, where the old one stays expired. -/
theorem not_hides_set (hk : w.h.findNode k = some n) (hexp : n.isExpired t = true)
    (ha : ∀ n', a.run (some n) = some n' → n'.isExpired t = true) {v : Value} {lr lw : UInt8} :
    ¬ Hides t w k (some (m, a)) (some (m', .set v lr lw)) := by
  intro hh
  have hrun : keyedRun w k (some (m, a)) = (w.h.apply k a).map fun h => (m, { w with h := h }) := rfl
  rw [Hides, hrun] at hh
  cases hx : w.h.apply k a with
  | none =>
    rw [hx] at hh
    exact nomatch hh
  | some h' =>
    rw [hx] at hh
    cases hh with
    | some hsame =>
      -- the key is found behind the purge on one side only
      have hfind := congrArg (fun h : Hash => h.findNode k) hsame.2.1
      have hleft : (h'.purge t).findNode k = none := by
        rw [Hash.findNode_purge, Hash.findNode_apply hx, if_pos rfl, hk]
        cases hrun : a.run (some n) with
        | none => rfl
        | some n' => rw [Option.filter_some, ha n' hrun, if_neg (by simp)]
      have hright : (((w.h.purge t).set k v lr lw).purge t).findNode k
          = some (Hash.setEntry v lr lw none) := by
        rw [Hash.findNode_purge, Hash.findNode_set, if_pos rfl,
          Hash.findNode_purge_of_expired hk hexp]
        rfl
      change (h'.purge t).findNode k = (((w.h.purge t).set k v lr lw).purge t).findNode k at hfind
      rw [hleft, hright] at hfind
      exact absurd hfind (by simp)

/-! ### The handlers on an expired entry -/

/-- A handler hides an expired entry exactly when the test holds. -/
def Tested (arity : Arity) (f : KeyHandler) (test : Test) : Prop :=
  ∀ (w : World) (c : Call) (n : Kv), w.h.findNode c.k = some n → n.isExpired c.currTime = true →
    arity.holds (c.args.length + 2) = true → (∀ x ∈ c.args, x ≠ []) →
      (Hides c.currTime w c.k (f c (some n)) (f c none) ↔ test c n)

/-- A handler that tests the expiry. -/
theorem tested_live {body : Call → Kv → Result} :
    Tested arity (fun c node => live c node (body c)) collects := by
  intro w c n hk hexp _ _
  dsimp only
  rw [live_of_expired hexp]
  exact hides_del_iff hk hexp

/-- `expire` reads its argument first. -/
theorem expire_tested : Tested arity expire
    fun c n => (∀ x, strtoint (c.arg 0) ≠ some (true, x)) ∨ collects c n := by
  intro w c n hk hexp _ _
  unfold expire withInt
  rcases hx : strtoint (c.arg 0) with _ | ⟨_ | _, x⟩
  · exact iff_of_true .none (Or.inl (by simp [hx]))
  · exact iff_of_true (hides_reply_iff.mpr rfl) (Or.inl (by simp [hx]))
  · dsimp only
    rw [live_of_expired hexp, or_iff_right fun h => h x hx]
    exact hides_del_iff hk hexp

/-- The message with the key is no other message. -/
theorem ne_noSuchKey {msg : Str} (h : msg[10]? ≠ some (byte ' ')) : msg ≠ noSuchKey k := by
  rintro rfl
  exact h rfl

/-- A handler that still sees the entry, and has another reply for it. -/
theorem tested_never {f : KeyHandler} (hnone : ∀ c, f c none = reply (noSuchKey c.k))
    (h : ∀ c n, Answers (fun msg _ => msg[10]? ≠ some (byte ' ')) (f c (some n))) :
    Tested arity f never := by
  intro w c n _ _ _ _
  rw [hnone]
  exact iff_of_false (not_hides_of_reply fun msg a hr => ne_noSuchKey (h c n msg a hr)) id

theorem del_tested : Tested arity del never :=
  tested_never (fun _ => rfl) fun _ _ => .permitted (by decide) fun _ => .act (by decide)

theorem setLevel_tested (mutator : Kv → UInt8 → Kv) : Tested arity (setLevel mutator) never :=
  tested_never (fun _ => rfl) fun _ _ => .withInt (by decide) fun _ _ =>
    .ite (fun _ => .act (by decide)) fun _ => .withinAuth (by decide) fun _ =>
      .permitted (by decide) fun _ => .act (by decide)

/-- An expired entry is expired after it is overwritten. -/
theorem not_hides_overwritable (hk : w.h.findNode c.k = some n) (hexp : n.isExpired c.currTime = true)
    {v : Value} {lr lw : UInt8} :
    ¬ Hides c.currTime w c.k (overwritable c (some n) (some (m, .set v lr lw)))
      (overwritable c none (some (m, .set v lr lw))) := by
  unfold overwritable permitted
  dsimp only
  split_ifs
  · refine not_hides_set hk hexp fun n' hn' => ?_
    rw [← Option.some.inj hn']
    exact hexp
  · refine not_hides_set hk hexp fun n' hn' => ?_
    rw [← Option.some.inj hn', Hash.isExpired_setEntry]
    exact hexp

/-- A text of words that are not empty. -/
theorem joined_ne_nil (hargs : c.args ≠ []) (hwords : ∀ x ∈ c.args, x ≠ []) : c.joined ≠ [] := by
  obtain ⟨x, xs, hxs⟩ := List.exists_cons_of_ne_nil hargs
  have hx : x ≠ [] := hwords x (by rw [hxs]; exact List.mem_cons_self ..)
  have hjoined : c.joined = merge (byte ',') (x :: xs) := by
    rw [Call.joined, joinArgs_eq, hxs]
    simp [Call.arg, hxs]
  rw [hjoined, Ne, merge_eq_nil]
  rintro (h | h)
  · exact absurd h (by simp)
  · exact hx (List.cons.inj h).1

theorem splitData_joined (hargs : c.args ≠ []) (hwords : ∀ x ∈ c.args, x ≠ []) :
    Value.splitData c.joined = some (split c.joined (byte ',')) := by
  rw [Value.splitData, if_neg (joined_ne_nil hargs hwords)]

theorem lmake_tested : Tested (.atLeast 3) lmake never := by
  intro w c n hk hexp harity hwords
  have hargs : c.args ≠ [] := by
    rintro h
    simp [Arity.holds, h] at harity
  unfold lmake
  rw [Value.dataEncode, splitData_joined hargs hwords]
  exact iff_of_false (not_hides_overwritable hk hexp) id

theorem smake_tested : Tested (.atLeast 3) smake never := by
  intro w c n hk hexp harity hwords
  have hargs : c.args ≠ [] := by
    rintro h
    simp [Arity.holds, h] at harity
  unfold smake
  rw [splitData_joined hargs hwords]
  exact iff_of_false (not_hides_overwritable hk hexp) id

/-- `hmake` counts the words before it looks the key up. -/
theorem hmake_tested : Tested (.atLeast 4) hmake fun c _ => c.args.length % 2 = 1 := by
  intro w c n hk hexp harity hwords
  have hargs : c.args ≠ [] := by
    rintro h
    simp [Arity.holds, h] at harity
  unfold hmake
  by_cases hodd : (c.args.length + 2) % 2 ≠ 0
  · rw [if_pos hodd, if_pos hodd]
    exact iff_of_true (hides_reply_iff.mpr rfl) (by omega)
  · rw [if_neg hodd, if_neg hodd, Value.dataEncode, splitData_joined hargs hwords]
    exact iff_of_false (not_hides_overwritable hk hexp) (by omega)

/-- The arguments of `make` are refused with a reply, or accepted. -/
def Decided (c : Call) (body : Result) : Prop :=
  (∃ msg, levelRefusal c = some msg ∧ body = reply msg) ∨
    levelRefusal c = none ∧ ∃ v lr lw, body = some (confirmMsg, .set v lr lw)

/-- One level. -/
theorem decided_one {data arg3 : Str} (hc : c.args = [data, arg3]) (h3 : arg3 ≠ []) :
    Decided c (withInt arg3 invalidAuth fun temp =>
      if temp < 0 then reply invalidAuth
      else withinAuth c temp <| some (confirmMsg, .set (.string data) (toU8 temp) c.auth)) := by
  obtain ⟨⟨b, x⟩, hx⟩ := strtoint_isSome h3
  unfold Decided levelRefusal withInt withinAuth
  rw [hc]
  simp only [hx]
  cases b with
  | false => exact Or.inl ⟨_, rfl, rfl⟩
  | true =>
    dsimp only
    split_ifs with h₀ h₁
    · exact Or.inl ⟨_, rfl, rfl⟩
    · exact Or.inl ⟨_, rfl, rfl⟩
    · exact Or.inr ⟨rfl, _, _, _, rfl⟩

/-- Two levels. -/
theorem decided_two {data arg3 arg4 : Str} (hc : c.args = [data, arg3, arg4]) (h3 : arg3 ≠ [])
    (h4 : arg4 ≠ []) : ∃ b1 x b2 y, strtoint arg3 = some (b1, x) ∧ strtoint arg4 = some (b2, y) ∧
    Decided c (if !b1 || x < 0 then reply invalidAuth
      else if !b2 || y < 0 then reply invalidAuth
      else withinAuth c x <| withinAuth c y <|
        if x > y then reply invalidAuth
        else some (confirmMsg, .set (.string data) (toU8 x) (toU8 y))) := by
  obtain ⟨⟨b1, x⟩, hx⟩ := strtoint_isSome h3
  obtain ⟨⟨b2, y⟩, hy⟩ := strtoint_isSome h4
  refine ⟨b1, x, b2, y, hx, hy, ?_⟩
  unfold Decided levelRefusal withinAuth
  rw [hc]
  simp only [hx, hy]
  cases b1 with
  | false => exact Or.inl ⟨_, rfl, rfl⟩
  | true =>
    cases b2 with
    | false =>
      refine Or.inl ⟨_, rfl, ?_⟩
      simp only [Bool.not_true, Bool.not_false, Bool.false_or, Bool.true_or, decide_eq_true_eq]
      by_cases hx₀ : x < 0
      · rw [if_pos hx₀]
      · rw [if_neg hx₀, if_pos trivial]
    | true =>
      simp only [Bool.not_true, Bool.false_or, decide_eq_true_eq]
      -- the refusals in the order in which the handler makes them
      by_cases hx₀ : x < 0
      · exact Or.inl ⟨_, if_pos (Or.inl hx₀), if_pos hx₀⟩
      by_cases hy₀ : y < 0
      · exact Or.inl ⟨_, if_pos (Or.inr hy₀), by rw [if_neg hx₀, if_pos hy₀]⟩
      have h₀ : ¬ (x < 0 ∨ y < 0) := not_or.mpr ⟨hx₀, hy₀⟩
      rw [if_neg h₀, if_neg hx₀, if_neg hy₀]
      by_cases hx₁ : (c.auth.toNat : Int) < x
      · exact Or.inl ⟨_, if_pos (Or.inl hx₁), if_pos hx₁⟩
      by_cases hy₁ : (c.auth.toNat : Int) < y
      · exact Or.inl ⟨_, if_pos (Or.inr hy₁), by rw [if_neg hx₁, if_pos hy₁]⟩
      have h₁ : ¬ ((c.auth.toNat : Int) < x ∨ (c.auth.toNat : Int) < y) := not_or.mpr ⟨hx₁, hy₁⟩
      rw [if_neg h₁, if_neg hx₁, if_neg hy₁]
      split_ifs
      · exact Or.inl ⟨_, rfl, rfl⟩
      · exact Or.inr ⟨rfl, _, _, _, rfl⟩

/-- `make` behind its test of the entry. -/
theorem make_eq (harity : c.args.length = 1 ∨ c.args.length = 2 ∨ c.args.length = 3)
    (hwords : ∀ x ∈ c.args, x ≠ []) :
    ∃ body, Decided c body ∧ ∀ node, make c node = overwritable c node body := by
  unfold make
  match hc : c.args with
  | [data] => exact ⟨_, Or.inr ⟨by rw [levelRefusal, hc], _, _, _, rfl⟩, fun _ => rfl⟩
  | [data, arg3] =>
    exact ⟨_, decided_one hc (hwords arg3 (by rw [hc]; simp)), fun _ => rfl⟩
  | [data, arg3, arg4] =>
    obtain ⟨b1, x, b2, y, hx, hy, hdec⟩ := decided_two hc (hwords arg3 (by rw [hc]; simp))
      (hwords arg4 (by rw [hc]; simp))
    refine ⟨_, hdec, fun _ => ?_⟩
    simp only [hx, hy]
  | [] => simp [hc] at harity
  | _ :: _ :: _ :: _ :: _ => simp [hc] at harity

theorem make_tested (harity : arity = .exactly 3 ∨ arity = .exactly 4 ∨ arity = .exactly 5) :
    Tested arity make refuses := by
  intro w c n hk hexp hholds hwords
  have hlength : c.args.length = 1 ∨ c.args.length = 2 ∨ c.args.length = 3 := by
    rcases harity with rfl | rfl | rfl
    · simp only [Arity.holds, beq_iff_eq] at hholds
      omega
    · simp only [Arity.holds, beq_iff_eq] at hholds
      omega
    · simp only [Arity.holds, beq_iff_eq] at hholds
      omega
  obtain ⟨body, ⟨msg, hmsg, rfl⟩ | ⟨hnone, v, lr, lw, rfl⟩, hmake⟩ := make_eq hlength hwords
  · rw [hmake, hmake, refuses, hmsg]
    unfold overwritable permitted
    dsimp only
    split_ifs with hlt
    · rw [hides_reply_iff]
      have hno : ¬ n.authw ≤ c.auth := UInt8.not_le.mpr hlt
      constructor
      · rintro rfl
        exact ⟨_, rfl, Or.inr rfl⟩
      · rintro ⟨_, heq, h⟩
        rw [Option.some.inj heq]
        exact (h.resolve_left hno).symm
    · exact iff_of_true (hides_reply_iff.mpr rfl) ⟨msg, rfl, Or.inl (UInt8.not_lt.mp hlt)⟩
  · rw [hmake, hmake, refuses, hnone]
    exact iff_of_false (not_hides_overwritable hk hexp) (by simp)

/-- Every handler of a key has its test. -/
theorem handler_tested : ∀ row ∈ dispatch, ∀ f, row.2.2 = .keyed f →
    ∃ test, tests.lookup row.1 = some test ∧ Tested row.2.1 f test := by
  simp only [dispatch, List.forall_mem_cons, Handler.keyed.injEq, forall_eq', reduceCtorEq,
    IsEmpty.forall_iff, implies_true, true_and, List.not_mem_nil, and_true]
  exact ⟨⟨_, rfl, tested_live⟩, ⟨_, rfl, make_tested (Or.inl rfl)⟩,
    ⟨_, rfl, make_tested (Or.inr (Or.inl rfl))⟩, ⟨_, rfl, make_tested (Or.inr (Or.inr rfl))⟩,
    ⟨_, rfl, del_tested⟩, ⟨_, rfl, lmake_tested⟩, ⟨_, rfl, tested_live⟩, ⟨_, rfl, tested_live⟩,
    ⟨_, rfl, tested_live⟩, ⟨_, rfl, tested_live⟩, ⟨_, rfl, tested_live⟩, ⟨_, rfl, tested_live⟩,
    ⟨_, rfl, tested_live⟩, ⟨_, rfl, smake_tested⟩, ⟨_, rfl, tested_live⟩, ⟨_, rfl, tested_live⟩,
    ⟨_, rfl, tested_live⟩, ⟨_, rfl, tested_live⟩, ⟨_, rfl, hmake_tested⟩, ⟨_, rfl, tested_live⟩,
    ⟨_, rfl, tested_live⟩, ⟨_, rfl, tested_live⟩, ⟨_, rfl, tested_live⟩, ⟨_, rfl, tested_live⟩,
    ⟨_, rfl, setLevel_tested _⟩, ⟨_, rfl, setLevel_tested _⟩, ⟨_, rfl, expire_tested⟩,
    ⟨_, rfl, tested_live⟩⟩

/-- **A command that names a key** hides the expired entries if and only if its handler has none
under the key, or hides this one. -/
theorem keyed_invisible_iff {word : Str} {args : List Str} {auth : UInt8} {f : KeyHandler}
    (hlook : lookup dispatch word (args.length + 1) = some (.keyed f))
    (hwords : ∀ x ∈ args, x ≠ []) :
    Hides t w (args.headD []) (f ⟨args.headD [], args.tail, auth, t⟩ (w.h.findNode (args.headD [])))
      (f ⟨args.headD [], args.tail, auth, t⟩ ((w.h.purge t).findNode (args.headD []))) ↔
      (Handler.keyed f).Unaffected word args auth t w := by
  obtain ⟨arity, hmem, harity⟩ := lookup_eq_some hlook
  obtain ⟨test, htest, htested⟩ := handler_tested _ hmem f rfl
  obtain ⟨k, args, rfl⟩ := List.exists_cons_of_ne_nil (args_ne_nil_of_keyed hlook)
  rw [Handler.Unaffected, List.headD_cons, List.tail_cons]
  by_cases hlive : ∀ n, w.h.findNode k = some n → n.isExpired t = false
  · rw [Hash.findNode_purge_of_live hlive]
    refine iff_of_true (hides_of_live hlive _) fun n hn hexp => ?_
    rw [hlive n hn] at hexp
    exact absurd hexp Bool.false_ne_true
  · push Not at hlive
    obtain ⟨n, hk, hexp⟩ := hlive
    rw [Bool.ne_false_iff] at hexp
    rw [Hash.findNode_purge_of_expired hk hexp, hk]
    rw [htested w ⟨k, args, auth, t⟩ n hk hexp harity fun x hx =>
      hwords x (List.mem_cons_of_mem _ hx)]
    constructor
    · intro h n' hn' _
      obtain rfl := Option.some.inj hn'
      exact ⟨test, htest, h⟩
    · intro h
      obtain ⟨test', htest', hn⟩ := h n rfl hexp
      obtain rfl := Option.some.inj (htest.symm.trans htest')
      exact hn

end Command

end MuseKv
