import MuseKv.Command.Equiv.Isolation
import MuseKv.Command.Equiv.LazyExpiry
import MuseKv.Command.Sweeps
import MuseKv.Hash.Equiv.Sweep

/-!
# Sweeps do not show

A pass of `ttl_expire_background` that ends is a sweep of the table (`sweep_of_expires`).  Sweeps between the
commands of a run, whenever they are and whatever they meet, change no reply and no live entry, as long as
no command of the run shows an expired entry (**`runSwept_replies`**).
-/

namespace MuseKv

open General Kvstore Command

variable {t t' : Int} {a b : Option Kv} {n : Kv} {w w' v v' : World} {h h' : Hash} {k msg : Str}
  {met : Str → Bool} {es : List SweepEvent} {replies : List Str} {ws : List Str} {auth : UInt8}

/-- An entry that is expired stays so. -/
theorem Kv.isExpired_mono (ht : t ≤ t') (h : n.isExpired t = true) : n.isExpired t' = true := by
  rw [isExpired] at h ⊢
  split_ifs at h ⊢ with hfin httl hlt hlt'
  · rfl
  · omega
  · rfl

/-! ### One sweep -/

theorem Hash.sweep_eq_some (h : Hash)
    (hset : ∀ k n, h.findNode k = some n → n.v.isUnset = false) (t : Int) (met : Str → Bool) :
    h.sweep t met = some { h with
      h := Buckets.filter (fun e => !Hash.swept t met e) h.h
      wf := h.wf.filter _ } := by
  rw [sweep, if_neg]
  intro hany
  obtain ⟨e, he, hunset⟩ := List.any_eq_true.mp hany
  rw [hset e.1 e.2 (findNode_eq_some_iff.mpr he)] at hunset
  exact absurd hunset (by simp)

theorem Hash.findNode_sweep (hs : h.sweep t met = some h') (k : Str) :
    h'.findNode k = (h.findNode k).filter fun n => !Hash.swept t met (k, n) := by
  rw [sweep] at hs
  split_ifs at hs
  obtain rfl := Option.some.inj hs
  rw [findNode, h.wf.find_filter, findNode]
  cases hk : Buckets.find slot Prod.fst h.h k with
  | none => rfl
  | some e =>
    obtain rfl : e.1 = k := Buckets.find_key hk
    rw [Option.filter_some, Option.map_some, Option.filter_some]
    split_ifs
    · rfl
    · rfl

/-- A list without repetitions determines its sublists by their elements. -/
theorem filter_eq_of_sublist {α : Type} {p : α → Bool} {l l' : List α} (h : l'.Sublist l)
    (hl : l.Nodup) (hp : ∀ x ∈ l, p x = true ↔ x ∈ l') : l.filter p = l' := by
  induction h with
  | slnil => rfl
  | @cons l' l x hsub ih =>
    obtain ⟨hx, hl⟩ := List.nodup_cons.mp hl
    have hpx : ¬ p x = true := fun h => hx (hsub.subset ((hp x (List.mem_cons_self ..)).mp h))
    rw [List.filter_cons_of_neg hpx]
    exact ih hl fun y hy => hp y (List.mem_cons_of_mem _ hy)
  | @cons_cons l' l x hsub ih =>
    obtain ⟨hx, hl⟩ := List.nodup_cons.mp hl
    have hpx : p x = true := (hp x (List.mem_cons_self ..)).mpr (List.mem_cons_self ..)
    rw [List.filter_cons_of_pos hpx, ih hl fun y hy => ?_]
    have hne : y ≠ x := fun heq => hx (heq ▸ hy)
    rw [hp y (List.mem_cons_of_mem _ hy), List.mem_cons, or_iff_right hne]

/-- **A pass that ends is a sweep** at a time when all its chains have been examined. -/
theorem sweep_of_expires {m m' : HeapHash} {c c' : Fin totalSlotNum → List (ℕ × Str × Kv)}
    {times : Fin totalSlotNum → Int} (hi : HeapHash.Invariant m c) (hi' : HeapHash.Invariant m' c')
    (hc : HeapHash.Expires times c c') (htimes : ∀ i, times i ≤ t)
    (hh : ∀ i, (c i).map Prod.snd = h.h i)
    (hset : ∀ k n, h.findNode k = some n → n.v.isUnset = false) :
    ∃ met h', h.sweep t met = some h' ∧ HeapHash.Refines m' h' := by
  -- it met the keys that are gone
  let met : Str → Bool := fun k => k ∉ (c' (Hash.slot k)).map fun x => x.2.1
  refine ⟨met, _, h.sweep_eq_some hset t met, c', hi'.rep, fun i => ?_⟩
  obtain ⟨hsub, hexp⟩ := hc i
  have hnodup := hi.wf.nodup i
  have hstays : ∀ x ∈ c i, (!Hash.swept t met x.2) = true ↔ x ∈ c' i := by
    intro x hx
    obtain rfl := hi.slot_eq hx
    rw [Bool.not_eq_true', Hash.swept, Bool.and_eq_false_iff]
    constructor
    · rintro (hmet | hlive)
      · obtain ⟨y, hy, hkey⟩ := List.mem_map.mp (not_not.mp (of_decide_eq_false hmet))
        exact List.inj_on_of_nodup_map hnodup (hsub.subset hy) hx hkey ▸ hy
      · by_contra hgone
        rw [Kv.isExpired_mono (htimes _) (hexp x hx hgone)] at hlive
        exact absurd hlive (by simp)
    · exact fun hmem => Or.inl (decide_eq_false (not_not.mpr (List.mem_map_of_mem hmem)))
  change _ = (h.h i).filter fun e => !Hash.swept t met e
  rw [← hh, List.filter_map]
  exact congrArg (List.map Prod.snd) (filter_eq_of_sublist hsub hnodup.of_map hstays).symm

/-! ### Behind a sweep -/

/-- The entry is the same, or it was expired and is gone. -/
def Gone (t : Int) (a b : Option Kv) : Prop := b = a ∨ b = none ∧ ∃ n, a = some n ∧ n.isExpired t = true

theorem Gone.mono (ht : t ≤ t') (h : Gone t a b) : Gone t' a b :=
  h.imp_right fun ⟨hb, n, ha, hexp⟩ => ⟨hb, n, ha, Kv.isExpired_mono ht hexp⟩

/-- Filtering out what is expired. -/
theorem gone_filter (a : Option Kv) : Gone t a (a.filter fun n => !n.isExpired t) := by
  cases a with
  | none => exact Or.inl rfl
  | some n =>
    rw [Option.filter_some]
    split_ifs with hn
    · exact Or.inl rfl
    · exact Or.inr ⟨rfl, n, rfl, by simpa using hn⟩

theorem Gone.live_iff (h : Gone t a b) (hlive : n.isExpired t = false) : b = some n ↔ a = some n := by
  rcases h with rfl | ⟨rfl, m, rfl, hexp⟩
  · rfl
  · refine iff_of_false (by simp) fun heq => ?_
    rw [Option.some.inj heq, hlive] at hexp
    exact absurd hexp (by simp)

/-- An entry that is left where there was none does not expire. -/
theorem KeyAction.perform_none {act : KeyAction} (h : act.perform none = some b) :
    b.filter (fun n => !n.isExpired t) = b := by
  cases act with
  | keep =>
    obtain rfl := Option.some.inj h
    rfl
  | del => exact absurd h (by simp [perform])
  | set =>
    obtain rfl := Option.some.inj h
    rfl
  | write =>
    obtain rfl := Option.some.inj h
    rfl

/-- A table, and the one that was swept until the time `t`. -/
structure SweptUntil (t : Int) (w v : World) : Prop where
  entry : ∀ k, Gone t (w.h.findNode k) (v.h.findNode k)
  startNum : v.h.startNum = w.h.startNum
  endNum : v.h.endNum = w.h.endNum
  filled : ∀ k n, w.h.findNode k = some n → n.v.isUnset = false

theorem SweptUntil.mono (h : SweptUntil t w v) (ht : t ≤ t') : SweptUntil t' w v :=
  { h with entry := fun k => (h.entry k).mono ht }

theorem SweptUntil.notHere (h : SweptUntil t w v) : Command.notHere v.h = Command.notHere w.h := by
  funext k
  rw [Command.notHere, Command.notHere, h.startNum, h.endNum]

theorem SweptUntil.refused (h : SweptUntil t w v) (ws : List Str) :
    Command.refused v.h ws = Command.refused w.h ws := by
  unfold Command.refused
  rw [h.notHere]

/-- **A sweep** goes on from there. -/
theorem SweptUntil.sweep (h : SweptUntil t w v) (met : Str → Bool) :
    ∃ h', v.h.sweep t met = some h' ∧ SweptUntil t w { v with h := h' } := by
  have hset : ∀ k n, v.h.findNode k = some n → n.v.isUnset = false := by
    intro k n hn
    rcases h.entry k with heq | ⟨hnone, -⟩
    · exact h.filled k n (heq ▸ hn)
    · exact absurd (hn.symm.trans hnone) (by simp)
  have hsweep := v.h.sweep_eq_some hset t met
  refine ⟨_, hsweep, fun k => ?_, h.startNum, h.endNum, h.filled⟩
  rw [Hash.findNode_sweep hsweep]
  rcases h.entry k with heq | ⟨hnone, hexp⟩
  · rw [heq]
    cases w.h.findNode k with
    | none => exact Or.inl rfl
    | some n =>
      rw [Option.filter_some]
      split_ifs with hn
      · exact Or.inl rfl
      · rw [Bool.not_eq_true', Bool.not_eq_false, Hash.swept, Bool.and_eq_true] at hn
        exact Or.inr ⟨rfl, n, rfl, hn.2⟩
  · rw [hnone]
    exact Or.inr ⟨rfl, hexp⟩

/-! ### One command -/

namespace Command

/-- What a command does to its key is what it does to the table, seen under that key. -/
theorem keyEffect_findNode (k : Str) : keyEffect ws auth t (w.h.findNode k) =
    (keyedRun w k (keyResult ws auth t (w.h.findNode k))).map fun x => (x.1, x.2.h.findNode k) := by
  rw [keyEffect, keyedRun]
  cases keyResult ws auth t (w.h.findNode k) with
  | none => rfl
  | some r =>
    have hsome := w.h.apply_isSome k r.2
    rw [Option.bind_some, Option.bind_some]
    cases happly : w.h.apply k r.2 with
    | none =>
      have hnone : r.2.perform (w.h.findNode k) = none := by
        rw [happly, Option.isSome_none] at hsome
        exact Option.not_isSome_iff_eq_none.mp (by rw [← hsome]; exact Bool.false_ne_true)
      rw [hnone]
      rfl
    | some h =>
      rw [Hash.apply_perform happly]
      rfl

/-- **A command** that does not show the expired entry of its key does the same without it. -/
theorem keyEffect_gone (hws : ∀ x ∈ ws, x ≠ []) (hun : ∀ word args handler, ws = word :: args →
      lookup dispatch word (args.length + 1) = some handler → handler.Unaffected word args auth t w)
    (hgone : Gone t (w.h.findNode (keyOf ws)) b)
    (h : keyEffect ws auth t (w.h.findNode (keyOf ws)) = some (msg, a)) :
    ∃ b', keyEffect ws auth t b = some (msg, b') ∧ Gone t a b' := by
  rcases hgone with rfl | ⟨rfl, n, hk, hexp⟩
  · exact ⟨a, h, Or.inl rfl⟩
  rcases keyResult_cases ws auth t with hinvalid | ⟨word, k, args, f, rfl, hlook, hf⟩
  · rw [keyEffect_keep (hinvalid _)] at h
    obtain ⟨rfl, rfl⟩ := Prod.mk.inj (Option.some.inj h)
    exact ⟨none, keyEffect_keep (hinvalid _), Or.inr ⟨rfl, n, hk, hexp⟩⟩
  change w.h.findNode k = some n at hk
  change keyEffect (word :: k :: args) auth t (w.h.findNode k) = some (msg, a) at h
  have hlook' : lookup dispatch word ((k :: args).length + 1) = some (.keyed f) := hlook
  have hhides := (keyed_invisible_iff hlook' fun x hx => hws x (List.mem_cons_of_mem _ hx)).mpr
    (hun word (k :: args) _ rfl hlook')
  change Hides t w k (f ⟨k, args, auth, t⟩ (w.h.findNode k))
    (f ⟨k, args, auth, t⟩ ((w.purge t).h.findNode k)) at hhides
  rw [← hf, ← hf, Hides] at hhides
  -- on the table, and without the entry
  have hpurge : (w.purge t).h.findNode k = none := Hash.findNode_purge_of_expired hk hexp
  have hgone : keyEffect (word :: k :: args) auth t ((w.purge t).h.findNode k) = _ :=
    keyEffect_findNode k
  rw [keyEffect_findNode] at h
  obtain ⟨⟨msg, w₁⟩, hrun, heq⟩ := Option.map_eq_some_iff.mp h
  obtain ⟨rfl, rfl⟩ := Prod.mk.inj heq
  rw [hrun] at hhides
  cases hy : keyedRun (w.purge t) k (keyResult (word :: k :: args) auth t ((w.purge t).h.findNode k)) with
  | none =>
    rw [hy] at hhides
    cases hhides
  | some y =>
    rw [hy] at hhides hgone
    rw [hpurge] at hgone
    cases hhides with
    | some hsame =>
      obtain ⟨rfl, hlive, -⟩ := hsame
      refine ⟨y.2.h.findNode k, hgone, ?_⟩
      obtain ⟨r, -, hperform⟩ := Option.bind_eq_some_iff.mp hgone
      obtain ⟨node, hnode, heq⟩ := Option.map_eq_some_iff.mp hperform
      obtain ⟨-, rfl⟩ := Prod.mk.inj heq
      have hfilter := congrArg (fun h : Hash => h.findNode k) hlive
      dsimp only at hfilter
      rw [Hash.findNode_purge, Hash.findNode_purge, KeyAction.perform_none hnode] at hfilter
      rw [← hfilter]
      exact gone_filter _

theorem execute_swept {r : Request} (hord : Ordinary (words r.com)) (hs : SweptUntil r.currTime w v)
    (hun : Unaffected r.com r.auth r.currTime w)
    (h : execute r.com r.auth r.currTime w = some (msg, w')) :
    ∃ v', execute r.com r.auth r.currTime v = some (msg, v') ∧ SweptUntil r.currTime w' v' := by
  have href := hs.refused (words r.com)
  cases hw : refused w.h (words r.com) with
  | true =>
    rw [hw] at href
    have hctl : ∀ word ∈ (words r.com).head?, word ∉ controlWords := by
      intro word hword
      obtain ⟨args, hws⟩ := List.head?_eq_some_iff.mp hword
      exact (hord word args hws).1
    obtain ⟨msg', v', hv'⟩ := execute_isSome hord (keyed_apply_of_refused (l := fun _ => []) href)
    obtain ⟨k, hk, rfl, rfl⟩ := executeWords_refused hctl hw h
    obtain ⟨k', hk', rfl, rfl⟩ := executeWords_refused hctl href hv'
    obtain rfl := Option.some.inj (hk.symm.trans hk')
    exact ⟨_, hv', hs⟩
  | false =>
    rw [hw] at href
    obtain ⟨heffect, honly⟩ := executeWords_ordinary hord hw h
    have hhandler : ∀ word args handler, words r.com = word :: args →
        lookup dispatch word (args.length + 1) = some handler →
        handler.Unaffected word args r.auth r.currTime w := by
      intro word args handler hws hlook
      rw [Unaffected, hws] at hun
      rw [hws] at hw
      have hhere : ¬ args.head?.any (notHere w.h) = true := by
        rw [show args.head?.any (notHere w.h) = refused w.h (word :: args) from rfl, hw]
        exact Bool.false_ne_true
      exact (hun.resolve_left (hord word args hws).1).resolve_left hhere handler hlook
    obtain ⟨b', hb', hgone⟩ := keyEffect_gone (fun x hx => ne_nil_of_mem_words hx) hhandler
      (hs.entry (keyOf (words r.com))) heffect
    obtain ⟨v', hv'⟩ := executeWords_isSome hord href hb'
    obtain ⟨heffect', honly'⟩ := executeWords_ordinary hord href hv'
    obtain ⟨-, rfl⟩ := Prod.mk.inj (Option.some.inj (hb'.symm.trans heffect'))
    refine ⟨v', hv', fun k => ?_, ?_, ?_, fun k n hn => ?_⟩
    · by_cases hk : k = keyOf (words r.com)
      · exact hk ▸ hgone
      · rw [honly.others k hk, honly'.others k hk]
        exact hs.entry k
    · rw [honly'.startNum, honly.startNum, hs.startNum]
    · rw [honly'.endNum, honly.endNum, hs.endNum]
    · by_cases hk : k = keyOf (words r.com)
      · exact keyEffect_filled heffect (hs.filled _) n (hk ▸ hn)
      · exact hs.filled k n ((honly.others k hk).symm.trans hn)

end Command

/-! ### Runs -/

theorem SweptUntil.run (hs : SweptUntil t w v) (hfrom : ∀ e ∈ es, t ≤ e.time)
    (hclock : es.Pairwise fun e e' => e.time ≤ e'.time)
    (hord : ∀ r ∈ SweepEvent.requests es, Ordinary (words r.com))
    (hun : Undisturbed (SweepEvent.requests es) w)
    (hrun : runAll (SweepEvent.requests es) w = some (replies, w')) :
    ∃ v', runSwept es v = some (replies, v') ∧
      ∀ t', t ≤ t' → (∀ e ∈ es, e.time ≤ t') → SweptUntil t' w' v' := by
  induction es generalizing t w v replies with
  | nil =>
    obtain ⟨rfl, rfl⟩ := Prod.mk.inj (Option.some.inj hrun)
    exact ⟨v, rfl, fun t' ht' _ => hs.mono ht'⟩
  | cons e es ih =>
    obtain ⟨hlater, hticks⟩ := List.pairwise_cons.mp hclock
    have hnow := hs.mono (hfrom e (List.mem_cons_self ..))
    cases e with
    | command r =>
      obtain ⟨hr, hord⟩ := List.forall_mem_cons.mp hord
      obtain ⟨hun, hrest⟩ := hun
      obtain ⟨x, hx, hrun⟩ := Option.bind_eq_some_iff.mp hrun
      obtain ⟨y, hy, heq⟩ := Option.map_eq_some_iff.mp hrun
      obtain ⟨rfl, rfl⟩ := Prod.mk.inj heq
      obtain ⟨v₁, hv₁, hs₁⟩ := execute_swept hr hnow hun hx
      obtain ⟨v', hv', huntil⟩ := ih hs₁ hlater hticks hord (hrest x hx) hy
      refine ⟨v', ?_, fun t' _ ht' => ?_⟩
      · rw [runSwept, SweepEvent.step, hv₁, Option.map_some, Option.bind_some, hv', Option.map_some]
        rfl
      · obtain ⟨hr, hes⟩ := List.forall_mem_cons.mp ht'
        exact huntil t' hr hes
    | sweep at₀ met =>
      obtain ⟨h', hsweep, hs₁⟩ := hnow.sweep met
      obtain ⟨v', hv', huntil⟩ := ih hs₁ hlater hticks hord hun hrun
      refine ⟨v', ?_, fun t' _ ht' => ?_⟩
      · change v.h.sweep at₀ met = some h' at hsweep
        rw [runSwept, SweepEvent.step, hsweep, Option.map_some, Option.bind_some, hv', Option.map_some]
        rfl
      · obtain ⟨hr, hes⟩ := List.forall_mem_cons.mp ht'
        exact huntil t' hr hes

/-- **Sweeps do not show** in a run.  If no command of the run without them shows an expired entry, then
with sweeps at any times between the commands, that meet any keys, no step faults, all replies are the same,
and every key has the same entry in the end if it is live. -/
theorem runSwept_replies (hclock : es.Pairwise fun e e' => e.time ≤ e'.time)
    (hord : ∀ r ∈ SweepEvent.requests es, Ordinary (words r.com))
    (hset : ∀ k n, w.h.findNode k = some n → n.v.isUnset = false)
    (hun : Undisturbed (SweepEvent.requests es) w)
    (hrun : runAll (SweepEvent.requests es) w = some (replies, w')) :
    ∃ v', runSwept es w = some (replies, v') ∧ ∀ t, (∀ e ∈ es, e.time ≤ t) → ∀ k n,
      n.isExpired t = false → (v'.h.findNode k = some n ↔ w'.h.findNode k = some n) := by
  cases es with
  | nil =>
    obtain ⟨rfl, rfl⟩ := Prod.mk.inj (Option.some.inj hrun)
    exact ⟨w, rfl, fun _ _ _ _ _ => Iff.rfl⟩
  | cons e es =>
    -- the tables are the same at the first event
    have hs : SweptUntil e.time w w := ⟨fun _ => Or.inl rfl, rfl, rfl, hset⟩
    obtain ⟨v', hv', huntil⟩ := hs.run
      (List.forall_mem_cons.mpr ⟨le_rfl, (List.pairwise_cons.mp hclock).1⟩) hclock hord hun hrun
    refine ⟨v', hv', fun t ht k n hlive => ?_⟩
    exact ((huntil t (ht e (List.mem_cons_self ..)) ht).entry k).live_iff hlive

/-- A table with a text under `k` that expired at the time `5`. -/
def lapsed : World where
  h := ((Hash.new 8000).set (lit "k") (.string (lit "v")) 0 0).alter (lit "k") fun n => n.setTtl 5 0
  csv := none
  writable := true

theorem findNode_lapsed (k : Str) : lapsed.h.findNode k =
    if k = lit "k" then some ⟨.string (lit "v"), 5, 0, false, 0, 0⟩ else none := by
  rw [lapsed, Hash.findNode_alter, Hash.findNode_set]
  split_ifs
  · rfl
  · rfl

/-- The text is swept, looked for, and made anew. -/
def sweptText : List SweepEvent :=
  [.sweep 10 fun _ => true, .command ⟨lit "get k", 0, 10⟩, .command ⟨lit "make k x", 0, 11⟩]

/-- A command of a key is undisturbed where its test holds of the expired entry. -/
theorem unaffected_of_test {com word : Str} {args : List Str} {f : KeyHandler}
    (hws : words com = word :: k :: args)
    (hlook : lookup dispatch word (args.length + 2) = some (.keyed f))
    (htest : ∀ n, w.h.findNode k = some n → n.isExpired t = true →
      ∃ test, tests.lookup word = some test ∧ test ⟨k, args, auth, t⟩ n) :
    Unaffected com auth t w := by
  rw [Unaffected, hws]
  refine Or.inr (Or.inr fun handler hhandler => ?_)
  obtain rfl := Option.some.inj (hhandler.symm.trans hlook)
  exact htest

theorem undisturbed_sweptText : Undisturbed (SweepEvent.requests sweptText) lapsed := by
  have hget : words (lit "get k") = [lit "get", lit "k"] := by decide
  have hmake : words (lit "make k x") = [lit "make", lit "k", lit "x"] := by decide
  have hord : Ordinary (words (lit "get k")) := by
    rw [hget]
    exact ordinary_of_lookup (f := get) (by decide) rfl
  have hk : lapsed.h.findNode (lit "k") = some ⟨.string (lit "v"), 5, 0, false, 0, 0⟩ := by
    rw [findNode_lapsed, if_pos rfl]
  refine ⟨unaffected_of_test (f := get) hget rfl fun n hn _ => ?_, fun x hx =>
    ⟨unaffected_of_test (f := make) hmake rfl fun n hn _ => ?_, fun _ _ => trivial⟩⟩
  · obtain rfl := Option.some.inj (hk.symm.trans hn)
    exact ⟨collects, rfl, rfl⟩
  · -- `get` removed the entry
    obtain ⟨heffect, -⟩ := executeWords_ordinary hord rfl hx
    rw [hget] at heffect
    change keyEffect [lit "get", lit "k"] 0 10 (lapsed.h.findNode (lit "k")) =
      some (x.1, x.2.h.findNode (lit "k")) at heffect
    rw [hk] at heffect
    obtain ⟨-, hnone⟩ := Prod.mk.inj (Option.some.inj heffect)
    exact absurd (hnone.trans hn) (by simp)

/-- The text is gone with and without the sweep. -/
theorem runSwept_replies_text : ∃ replies w' v', runAll (SweepEvent.requests sweptText) lapsed =
    some (replies, w') ∧ runSwept sweptText lapsed = some (replies, v') ∧
    replies = [noSuchKey (lit "k"), confirmMsg] := by
  obtain ⟨w', hrun⟩ : ∃ w', runAll (SweepEvent.requests sweptText) lapsed =
    some ([noSuchKey (lit "k"), confirmMsg], w') := ⟨_, rfl⟩
  have hset : ∀ k n, lapsed.h.findNode k = some n → n.v.isUnset = false := by
    intro k n hn
    rw [findNode_lapsed] at hn
    split_ifs at hn
    obtain rfl := Option.some.inj hn
    rfl
  have hclock : sweptText.Pairwise fun e e' => e.time ≤ e'.time := by
    simp [sweptText, SweepEvent.time]
  have hord : ∀ r ∈ SweepEvent.requests sweptText, Ordinary (words r.com) := by
    simp only [sweptText, SweepEvent.requests, List.forall_mem_cons]
    rw [show words (lit "get k") = [lit "get", lit "k"] by decide,
      show words (lit "make k x") = [lit "make", lit "k", lit "x"] by decide]
    exact ⟨ordinary_of_lookup (f := get) (by decide) rfl,
      ordinary_of_lookup (f := make) (by decide) rfl, by simp⟩
  obtain ⟨v', hv', -⟩ := runSwept_replies hclock hord hset undisturbed_sweptText hrun
  exact ⟨_, w', v', hrun, hv', rfl⟩

end MuseKv
