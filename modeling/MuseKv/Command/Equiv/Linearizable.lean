import MuseKv.Command.Equiv.RoundTrip
import MuseKv.Command.Equiv.TwoStep
import MuseKv.General.Linearization

/-!
# Commands on threads that do not disturb each other

When the second step of a thread finds what it needs (`Undisturbed`), a lookup right before it would
have led to the same step, with one exception: a change of a value that was replaced meanwhile.  Such a
change is made to a value that no node has any more, so it could have been made just before the value
was replaced (`move_left`).  Hence every undisturbed run ends where one does whose second steps are all
`Current`, and there each command takes effect in its last step, as `execute` does (`linearizable`).
-/

namespace MuseKv

open General Kvstore Command

/-! ### What a pop takes -/

/-- The reply is an element of the value of a pop, and what is left is the value without it. -/
def Edit.Takes (msg : Str) : Edit → Value → Value → Prop
  | .lpop, v, v' => ∃ l, v = .list (msg :: l) ∧ v' = .list l
  | .rpop, v, v' => ∃ l, v = .list (l ++ [msg]) ∧ v' = .list l
  | .spop, v, v' => ∃ s s', v = .set s ∧ v' = .set s' ∧ msg ∈ s ∧ ∀ x, x ∈ s' ↔ x ∈ s ∧ x ≠ msg
  | _, _, _ => True

/-- **A pop that finds an element** takes it. -/
theorem Edit.takes_of_run {e : Edit} {v v' : Value} {msg : Str} (hrun : e.run v = some (msg, v'))
    (happ : e.applies v = true) : e.Takes msg v v' := by
  cases e with
  | lpush | rpush | spush | hpush => exact trivial
  | lpop =>
    cases v with
    | list l =>
      obtain ⟨rfl, rfl⟩ := Prod.mk.inj (Option.some.inj hrun)
      cases l with
      | nil => exact absurd happ (by decide)
      | cons x l => exact ⟨l, rfl, rfl⟩
    | string | set | hashmap | unset => exact absurd hrun (by simp [run])
  | rpop =>
    cases v with
    | list l =>
      obtain ⟨rfl, rfl⟩ := Prod.mk.inj (Option.some.inj hrun)
      have hne : l ≠ [] := of_decide_eq_true happ
      refine ⟨l.dropLast, ?_, rfl⟩
      rw [Linkedlist.popBack, List.getLast?_eq_some_getLast hne, Option.getD_some,
        List.dropLast_append_getLast hne]
    | string | set | hashmap | unset => exact absurd hrun (by simp [run])
  | spop =>
    cases v with
    | set s =>
      obtain ⟨rfl, rfl⟩ := Prod.mk.inj (Option.some.inj hrun)
      have hne : (!s.isEmpty) = true := happ
      rw [Bool.not_eq_true'] at hne
      exact ⟨s, s.pop.2, rfl, rfl, Hashset.pop_spec hne⟩
    | string | list | hashmap | unset => exact absurd hrun (by simp [run])

namespace Memory

/-- No key is in its chain twice. -/
def KeysOnce (m : Memory) : Prop := ∀ i, ((m.h i).map fun p => (m.node p).map HashNode.k).Nodup

theorem Represents.keysOnce {m : Memory} {h : Hash} (hm : m.Represents h) : m.KeysOnce := by
  intro i
  have hmap : ((m.h i).map fun p => (m.node p).map HashNode.k)
      = (m.h i).map fun p => (m.entry p).map Prod.fst := by
    apply List.map_congr_left
    intro p hp
    obtain ⟨e, -, hpe⟩ := hm.exists_entry hp
    obtain ⟨n, v, hn, -, rfl⟩ := entry_eq_some.mp hpe
    rw [hn, hpe]
    rfl
  rw [hmap]
  exact hm.keys_nodup i

/-! ### Later memories -/

/-- What a step leaves of the nodes and the values that were there. -/
structure Later (m m' : Memory) : Prop where
  top : m.top ≤ m'.top
  startNum : m'.startNum = m.startNum
  endNum : m'.endNum = m.endNum
  /-- A node keeps its key and its lifetime, and its levels too as long as it keeps its value. -/
  old : ∀ p n', p < m.top → m'.node p = some n' → ∃ n, m.node p = some n ∧ n'.k = n.k ∧
    n'.ttl = n.ttl ∧ n'.timer = n.timer ∧ n'.finished = n.finished ∧
    (n'.dataAddr = n.dataAddr ∧ n'.authw = n.authw ∨ n'.dataAddr = some m.top)
  /-- A new node has a new value. -/
  new : ∀ p n', m.top ≤ p → m'.node p = some n' → n'.dataAddr = some m.top
  /-- A value keeps its type, until it is deleted with its node. -/
  data : ∀ a v, m.data a = some v →
    (∃ v', m'.data a = some v' ∧ v'.isUnset = v.isUnset ∧ v'.dataDtype = v.dataDtype) ∨
      ∃ p n, m.node p = some n ∧ n.dataAddr = some a ∧ m'.node p = none

variable {m m' : Memory} {h : Hash} {r : Request} {u : Mutation} {msg : Str}

theorem WF.later_push (hwf : m.WF) (k : Str) (v : Value) (authr authw : UInt8) :
    m.Later (m.push k v authr authw) where
  top := Nat.le_succ _
  startNum := rfl
  endNum := rfl
  old p n' hp hn := by
    rw [push_node, if_neg hp.ne] at hn
    exact ⟨n', hn, rfl, rfl, rfl, rfl, Or.inl ⟨rfl, rfl⟩⟩
  new p n' hp hn := by
    rw [push_node] at hn
    split_ifs at hn
    · rw [← Option.some.inj hn]
    · exact absurd (hwf.lt_top hn) (not_lt.mpr hp)
  data a v' hv := by
    have ha : a ≠ m.top := fun ha => absurd hv (by rw [(hwf.fresh a ha.ge).2]; simp)
    exact Or.inl ⟨v', by rw [push_data, if_neg ha, hv], rfl, rfl⟩

theorem WF.later_overwrite (hwf : m.WF) {p : ℕ} {n : HashNode} (hn : m.node p = some n) (v : Value)
    (authr authw : UInt8) : m.Later (m.overwrite p n v authr authw) where
  top := Nat.le_succ _
  startNum := rfl
  endNum := rfl
  old q n' _ hq := by
    rw [overwrite_node] at hq
    split_ifs at hq with hqp
    · obtain rfl := Option.some.inj hq
      exact ⟨n, hqp ▸ hn, rfl, rfl, rfl, rfl, Or.inr rfl⟩
    · exact ⟨n', hq, rfl, rfl, rfl, rfl, Or.inl ⟨rfl, rfl⟩⟩
  new q n' hq hn' := by
    rw [overwrite_node] at hn'
    split_ifs at hn'
    · rw [← Option.some.inj hn']
      rfl
    · exact absurd (hwf.lt_top hn') (not_lt.mpr hq)
  data a v' hv := by
    have ha : a ≠ m.top := fun ha => absurd hv (by rw [(hwf.fresh a ha.ge).2]; simp)
    exact Or.inl ⟨v', by rw [overwrite_data, if_neg ha, hv], rfl, rfl⟩

theorem WF.later_free (hwf : m.WF) {p a : ℕ} {n : HashNode} (hn : m.node p = some n)
    (ha : n.dataAddr = some a) (k : Str) : m.Later (m.free k p a) where
  top := le_rfl
  startNum := rfl
  endNum := rfl
  old q n' _ hq := by
    rw [free_node] at hq
    split_ifs at hq
    exact ⟨n', hq, rfl, rfl, rfl, rfl, Or.inl ⟨rfl, rfl⟩⟩
  new q n' hq hn' := by
    rw [free_node] at hn'
    split_ifs at hn'
    exact absurd (hwf.lt_top hn') (not_lt.mpr hq)
  data b v hv := by
    by_cases hba : b = a
    · exact Or.inr ⟨p, n, hn, hba ▸ ha, by rw [free_node, if_pos rfl]⟩
    · exact Or.inl ⟨v, by rw [free_data, if_neg hba, hv], rfl, rfl⟩

theorem WF.later_write (hwf : m.WF) {a : ℕ} {e : Edit} {v : Value} {x : Str × Value}
    (hv : m.data a = some v) (hx : e.run v = some x) : m.Later (m.write a x.2) where
  top := le_rfl
  startNum := rfl
  endNum := rfl
  old q n' _ hq := ⟨n', hq, rfl, rfl, rfl, rfl, Or.inl ⟨rfl, rfl⟩⟩
  new q n' hq hn' := absurd (hwf.lt_top hn') (not_lt.mpr hq)
  data b v' hv' := by
    left
    by_cases hba : b = a
    · obtain rfl := Option.some.inj ((hba ▸ hv').symm.trans hv)
      obtain ⟨hset, htype⟩ := Edit.isSome_run.mp (Option.isSome_iff_exists.mpr ⟨x, hx⟩)
      obtain ⟨hset', htype'⟩ : x.2.isUnset = false ∧ x.2.dataDtype = e.dtype := Edit.run_keeps hx
      exact ⟨x.2, by rw [write_data, if_pos hba], hset'.trans hset.symm, htype'.trans htype.symm⟩
    · exact ⟨v', by rw [write_data, if_neg hba, hv'], rfl, rfl⟩

/-- **A second step** leads to a later memory. -/
theorem WF.later_mutate (hwf : m.WF) (hmut : m.mutate u = some (msg, m')) : m.Later m' := by
  cases u with
  | set p k v authr authw msg' =>
    cases p with
    | none =>
      obtain ⟨-, rfl⟩ := Prod.mk.inj (Option.some.inj hmut)
      exact hwf.later_push k v authr authw
    | some p =>
      obtain ⟨n, hn, heq⟩ := Option.map_eq_some_iff.mp hmut
      obtain ⟨-, rfl⟩ := Prod.mk.inj heq
      exact hwf.later_overwrite hn v authr authw
  | del p k msg' =>
    obtain ⟨n, hn, hmut⟩ := Option.bind_eq_some_iff.mp hmut
    obtain ⟨a, ha, hmut⟩ := Option.bind_eq_some_iff.mp hmut
    obtain ⟨v, -, heq⟩ := Option.map_eq_some_iff.mp hmut
    obtain ⟨-, rfl⟩ := Prod.mk.inj heq
    exact hwf.later_free hn ha k
  | edit p a e =>
    obtain ⟨n, -, hmut⟩ := Option.bind_eq_some_iff.mp hmut
    obtain ⟨v, hv, hmut⟩ := Option.bind_eq_some_iff.mp hmut
    obtain ⟨x, hx, heq⟩ := Option.map_eq_some_iff.mp hmut
    obtain ⟨-, rfl⟩ := Prod.mk.inj heq
    exact hwf.later_write hv hx

/-- **What a second step names stays as it is** in a later memory. -/
theorem Pending.later (hpend : m.Pending r u) (hlater : m.Later m') : m'.Pending r u := by
  obtain ⟨hhere, hans, htracks⟩ := hpend
  have hbounds : m'.notHere = m.notHere := by
    funext k
    rw [notHere, notHere, hlater.startNum, hlater.endNum]
  refine ⟨by rw [hbounds, hhere], hans, ?_⟩
  cases u with
  | set p k v authr authw msg' =>
    cases p with
    | none => exact trivial
    | some p =>
      obtain ⟨hp, hk⟩ := htracks
      refine ⟨hp.trans_le hlater.top, fun n' hn' => ?_⟩
      obtain ⟨n, hn, hkey, -⟩ := hlater.old p n' hp hn'
      rw [hkey, hk n hn]
  | del p k msg' =>
    obtain ⟨hp, hk⟩ := htracks
    refine ⟨hp.trans_le hlater.top, fun n' hn' => ?_⟩
    obtain ⟨n, hn, hkey, httl, htimer, hfinished, -⟩ := hlater.old p n' hp hn'
    obtain ⟨hk, hexp⟩ := hk n hn
    refine ⟨hkey.trans hk, fun hhead => ?_⟩
    have := hexp hhead
    rw [HashNode.kv, Kv.isExpired] at this ⊢
    rwa [httl, htimer, hfinished]
  | edit p a e =>
    obtain ⟨hp, ha, howner, hk⟩ := htracks
    refine ⟨hp.trans_le hlater.top, ha.trans_le hlater.top, fun q n' hq hqa => ?_, fun n' hn' => ?_⟩
    · -- a node that is new, or has a new value, has one that was not there before
      rcases lt_or_ge q m.top with hlt | hge
      · obtain ⟨n, hn, -, -, -, -, ⟨haddr, -⟩ | hnew⟩ := hlater.old q n' hlt hq
        · exact howner q n hn (haddr ▸ hqa)
        · exact absurd (Option.some.inj (hqa.symm.trans hnew)) ha.ne
      · exact absurd (Option.some.inj (hqa.symm.trans (hlater.new q n' hge hq))) ha.ne
    · obtain ⟨n, hn, hkey, httl, htimer, hfinished, haddr⟩ := hlater.old p n' hp hn'
      obtain ⟨hk, hexp, hle, v, hv, hrun⟩ := hk n hn
      refine ⟨hkey.trans hk, ?_, fun hna => ?_, ?_⟩
      · rw [HashNode.kv, Kv.isExpired] at hexp ⊢
        rwa [httl, htimer, hfinished]
      · rcases haddr with ⟨haddr, hauthw⟩ | hnew
        · rw [hauthw]
          exact hle (haddr ▸ hna)
        · exact absurd (Option.some.inj (hna.symm.trans hnew)) ha.ne
      · rcases hlater.data a v hv with ⟨v', hv', hset, htype⟩ | ⟨q, n₁, hq, hqa, hfree⟩
        · refine ⟨v', hv', ?_⟩
          rw [Edit.isSome_run] at hrun ⊢
          rwa [hset, htype]
        · -- the value is deleted with its node, which is this one
          rw [howner q n₁ hq hqa, hn'] at hfree
          exact absurd hfree (by simp)

/-! ### A change of a value that no node has -/

/-- A second step does not use a value. -/
def Avoids (m : Memory) (a : ℕ) : Mutation → Prop
  | .set _ _ _ _ _ _ => a < m.top
  | .del p _ _ => ∀ n, m.node p = some n → n.dataAddr ≠ some a
  | .edit _ b _ => b ≠ a

variable {a : ℕ}

/-- A lookup uses the values of nodes. -/
theorem look_write (hstale : ∀ q n, m.node q = some n → n.dataAddr ≠ some a) (v : Value)
    (r : Request) : (m.write a v).look r = m.look r := by
  have hvalue : ∀ q n, m.node q = some n → (m.write a v).value n.dataAddr = m.value n.dataAddr := by
    intro q n hn
    cases hd : n.dataAddr with
    | none => rfl
    | some d =>
      have hda : d ≠ a := fun hda => hstale q n hn (hda ▸ hd)
      rw [value, value, write_data, if_neg hda]
  have hbind : ∀ q, (((m.write a v).node q).bind fun n => ((m.write a v).value n.dataAddr).bind fun v =>
      (r.result (some (n.kv v))).bind (secondStep (words r.com) (some (q, n.dataAddr))))
        = (m.node q).bind fun n => (m.value n.dataAddr).bind fun v =>
          (r.result (some (n.kv v))).bind (secondStep (words r.com) (some (q, n.dataAddr))) := by
    intro q
    change (m.node q).bind _ = _
    cases hn : m.node q with
    | none => rfl
    | some n => rw [Option.bind_some, Option.bind_some, hvalue q n hn]
  rw [look, look]
  change (if (words r.com).tail.head?.any m.notHere = true then _ else _) = _
  split_ifs
  · rfl
  · have hfind : (m.write a v).findNode (keyOf (words r.com)) = m.findNode (keyOf (words r.com)) := rfl
    rw [hfind]
    cases m.findNode (keyOf (words r.com)) with
    | none => rfl
    | some p => exact hbind p

/-- A second step that does not use a value keeps it. -/
theorem Avoids.data (hu : m.Avoids a u) (hmut : m.mutate u = some (msg, m')) : m'.data a = m.data a := by
  cases u with
  | set p k v authr authw msg' =>
    have ha : a < m.top := hu
    cases p with
    | none =>
      obtain ⟨-, rfl⟩ := Prod.mk.inj (Option.some.inj hmut)
      rw [push_data, if_neg ha.ne]
    | some p =>
      obtain ⟨n, hn, heq⟩ := Option.map_eq_some_iff.mp hmut
      obtain ⟨-, rfl⟩ := Prod.mk.inj heq
      rw [overwrite_data, if_neg ha.ne]
  | del p k msg' =>
    obtain ⟨n, hn, hmut⟩ := Option.bind_eq_some_iff.mp hmut
    obtain ⟨b, hb, hmut⟩ := Option.bind_eq_some_iff.mp hmut
    obtain ⟨v, -, heq⟩ := Option.map_eq_some_iff.mp hmut
    obtain ⟨-, rfl⟩ := Prod.mk.inj heq
    have hab : a ≠ b := fun hab => hu n hn (hab ▸ hb)
    rw [free_data, if_neg hab]
  | edit p b e =>
    obtain ⟨n, -, hmut⟩ := Option.bind_eq_some_iff.mp hmut
    obtain ⟨v, hv, hmut⟩ := Option.bind_eq_some_iff.mp hmut
    obtain ⟨x, hx, heq⟩ := Option.map_eq_some_iff.mp hmut
    obtain ⟨-, rfl⟩ := Prod.mk.inj heq
    have hab : a ≠ b := fun hab => hu hab.symm
    rw [write_data, if_neg hab]

/-- **A second step commutes** with a change of a value that it does not use. -/
theorem Avoids.mutate_write (hu : m.Avoids a u) (hmut : m.mutate u = some (msg, m')) (v : Value) :
    (m.write a v).mutate u = some (msg, m'.write a v) := by
  cases u with
  | set p k v' authr authw msg' =>
    have ha : m.top ≠ a := ne_of_gt hu
    cases p with
    | none =>
      obtain ⟨rfl, rfl⟩ := Prod.mk.inj (Option.some.inj hmut)
      rw [mutate, push, push, write, write, Function.update_comm ha]
    | some p =>
      obtain ⟨n, hn, heq⟩ := Option.map_eq_some_iff.mp hmut
      obtain ⟨rfl, rfl⟩ := Prod.mk.inj heq
      change (m.node p).map _ = _
      rw [hn, Option.map_some, overwrite, overwrite, write, write, Function.update_comm ha]
  | del p k msg' =>
    obtain ⟨n, hn, hmut⟩ := Option.bind_eq_some_iff.mp hmut
    obtain ⟨b, hb, hmut⟩ := Option.bind_eq_some_iff.mp hmut
    obtain ⟨v', hv', heq⟩ := Option.map_eq_some_iff.mp hmut
    obtain ⟨rfl, rfl⟩ := Prod.mk.inj heq
    have hba : b ≠ a := fun hba => hu n hn (hba ▸ hb)
    change (m.node p).bind _ = _
    rw [hn, Option.bind_some, hb, Option.bind_some, write_data, if_neg hba, hv', Option.map_some, free,
      free, write, write, Function.update_comm hba]
  | edit p b e =>
    obtain ⟨n, hn, hmut⟩ := Option.bind_eq_some_iff.mp hmut
    obtain ⟨v', hv', hmut⟩ := Option.bind_eq_some_iff.mp hmut
    obtain ⟨x, hx, heq⟩ := Option.map_eq_some_iff.mp hmut
    obtain ⟨rfl, rfl⟩ := Prod.mk.inj heq
    have hba : b ≠ a := hu
    change (m.node p).bind _ = _
    rw [hn, Option.bind_some, write_data, if_neg hba, hv', Option.bind_some, hx, Option.map_some, write,
      write, write, write, Function.update_comm hba]

/-- What a second step needs does not depend on a value that it does not use. -/
theorem Avoids.suits_write (hu : m.Avoids a u) (hsuits : m.Suits r u) (v : Value) :
    (m.write a v).Suits r u := by
  cases u with
  | set p k v' authr authw msg' =>
    cases p with
    | none | some p => exact hsuits
  | del p k msg' => exact hsuits
  | edit p b e =>
    refine ⟨hsuits.1, fun v' hv' => hsuits.2 v' ?_⟩
    have hba : b ≠ a := hu
    rwa [write_data, if_neg hba] at hv'

theorem attached_write (hatt : m.Attached u) (v : Value) : (m.write a v).Attached u := by
  cases u with
  | set | del | edit => exact hatt

end Memory

namespace Threads

variable {n : ℕ} {cs : Fin n → Request} {s s' : Threads n} {i j : Fin n} {w : World}

/-! ### Steps -/

/-- The two steps of a thread. -/
theorem step_cases (h : s.step cs i = some s') :
    (s.phase i = .ready ∧ ∃ phase, s.mem.look (cs i) = some phase ∧
      s' = ⟨s.mem, Function.update s.phase i phase⟩) ∨
    ∃ u msg m', s.phase i = .waiting u ∧ s.mem.mutate u = some (msg, m') ∧
      s' = ⟨m', Function.update s.phase i (.done msg)⟩ := by
  rw [step] at h
  cases hphase : s.phase i with
  | ready =>
    rw [hphase] at h
    obtain ⟨phase, hlook, rfl⟩ := Option.map_eq_some_iff.mp h
    exact Or.inl ⟨rfl, phase, hlook, rfl⟩
  | waiting u =>
    rw [hphase] at h
    obtain ⟨x, hmut, rfl⟩ := Option.map_eq_some_iff.mp h
    exact Or.inr ⟨u, x.1, x.2, rfl, hmut, rfl⟩
  | done msg =>
    rw [hphase] at h
    exact absurd h (by simp)

theorem step_of_look {phase : Phase} (hphase : s.phase i = .ready)
    (hlook : s.mem.look (cs i) = some phase) :
    s.step cs i = some ⟨s.mem, Function.update s.phase i phase⟩ := by
  rw [step, hphase]
  dsimp only
  rw [hlook, Option.map_some]

theorem step_of_mutate {u : Mutation} {msg : Str} {m' : Memory} (hphase : s.phase i = .waiting u)
    (hmut : s.mem.mutate u = some (msg, m')) :
    s.step cs i = some ⟨m', Function.update s.phase i (.done msg)⟩ := by
  rw [step, hphase]
  dsimp only
  rw [hmut, Option.map_some]

theorem replies_congr {s' : Threads n} (h : s'.phase i = s.phase i) : s'.replies i = s.replies i := by
  rw [replies, replies, h]

theorem replies_of_done {msg : Str} (h : s.phase i = .done msg) : s.replies i = some msg := by
  rw [replies, h]

/-- A thread that is not done has not replied. -/
theorem replies_eq_none (h : ∀ msg, s.phase i ≠ .done msg) : s.replies i = none := by
  rw [replies]
  cases hphase : s.phase i with
  | ready | waiting => rfl
  | done msg => exact absurd hphase (h msg)

theorem replies_done (m' : Memory) (msg : Str) :
    (⟨m', Function.update s.phase i (.done msg)⟩ : Threads n).replies
      = Function.update s.replies i (some msg) := by
  funext j
  by_cases hj : j = i
  · rw [hj, Function.update_self]
    exact replies_of_done (Function.update_self _ _ _)
  · rw [Function.update_of_ne hj]
    exact replies_congr (Function.update_of_ne hj _ _)

theorem replies_look (hi : s.replies i = none) {phase : Phase} (hphase : ∀ msg, phase ≠ .done msg)
    (m' : Memory) :
    (⟨m', Function.update s.phase i phase⟩ : Threads n).replies = s.replies := by
  funext j
  by_cases hj : j = i
  · rw [hj, hi]
    refine replies_eq_none fun msg => ?_
    change Function.update s.phase i phase i ≠ .done msg
    rw [Function.update_self]
    exact hphase msg
  · exact replies_congr (Function.update_of_ne hj _ _)

/-! ### Runs whose second steps are current -/

/-- Looking again leads to the second step that a thread waits for. -/
def Current (cs : Fin n → Request) (s : Threads n) (i : Fin n) : Prop :=
  ∀ u, s.phase i = .waiting u → s.mem.look (cs i) = some (.waiting u)

/-- The commands that are done could have been executed one after another, and what the others wait
for is tracked. -/
def Consistent (cs : Fin n → Request) (w : World) (s : Threads n) : Prop :=
  ∃ w', Linearized (fun r => execute r.com r.auth r.currTime) cs w s.replies w' ∧
    s.mem.Represents w'.h ∧ ∀ i u, s.phase i = .waiting u → s.mem.Pending (cs i) u

theorem Consistent.start {m : Memory} (hm : m.Represents w.h) : Consistent cs w (start n m) :=
  ⟨w, .start, hm, fun i u hu => absurd hu (by simp [Threads.start])⟩

/-- **A current step** is that of a command, or is none that shows. -/
theorem Consistent.step (hcs : ∀ i, Apart (cs i)) (hs : Consistent cs w s) (hcur : Current cs s i)
    (hstep : s.step cs i = some s') : Consistent cs w s' := by
  obtain ⟨w', hlin, hm, hpend⟩ := hs
  rcases step_cases hstep with ⟨hphase, phase, hlook, rfl⟩ | ⟨u, msg, m', hphase, hmut, rfl⟩
  · have hnone : s.replies i = none := replies_eq_none fun msg => by rw [hphase]; simp
    -- the threads that wait, this one among them
    have hwait : ∀ j u, Function.update s.phase i phase j = .waiting u → s.mem.Pending (cs j) u := by
      intro j u hu
      by_cases hj : j = i
      · rw [hj, Function.update_self] at hu
        rw [hu] at hlook
        exact hj ▸ (Memory.pending_of_look hm (hcs i) hlook).1
      · rw [Function.update_of_ne hj] at hu
        exact hpend j u hu
    cases phase with
    | ready | waiting =>
      refine ⟨w', ?_, hm, hwait⟩
      rwa [replies_look hnone (by simp)]
    | done msg =>
      refine ⟨w', ?_, hm, hwait⟩
      rw [replies_done]
      exact hlin.complete hnone (Memory.execute_of_done hm (hcs i) hlook)
  · have hnone : s.replies i = none := replies_eq_none fun msg => by rw [hphase]; simp
    have hrel := Memory.mutate_look hm (hcs i) (hcur u hphase)
    rw [hmut] at hrel
    cases hexec : execute (cs i).com (cs i).auth (cs i).currTime w' with
    | none =>
      rw [hexec] at hrel
      cases hrel
    | some x =>
      rw [hexec] at hrel
      obtain ⟨hmsg, hm'⟩ : msg = x.1 ∧ m'.Represents x.2.h := by
        cases hrel with
        | some h => exact h
      refine ⟨x.2, ?_, hm', fun j u' hu' => ?_⟩
      · rw [replies_done]
        refine hlin.complete hnone ?_
        rw [hexec, hmsg]
      · change Function.update s.phase i (.done msg) j = .waiting u' at hu'
        by_cases hj : j = i
        · rw [hj, Function.update_self] at hu'
          exact absurd hu' (by simp)
        · rw [Function.update_of_ne hj] at hu'
          exact (hpend j u' hu').later (hm.wf.later_mutate hmut)

/-- **A run of current steps**. -/
theorem Consistent.run (hcs : ∀ i, Apart (cs i)) (hs : Consistent cs w s)
    (hrun : Run cs (Current cs) s s') : Consistent cs w s' := by
  induction hrun with
  | refl => exact hs
  | tail _ hcur hstep ih => exact ih.step hcs hcur hstep

/-! ### A change of a replaced value moves to the left -/

/-- A change that a thread waits for is made to the value that is there. -/
theorem mutate_edit {m m' : Memory} {p a : ℕ} {e : Edit} {msg : Str}
    (h : m.mutate (.edit p a e) = some (msg, m')) : ∃ n v v', m.node p = some n ∧
      m.data a = some v ∧ e.run v = some (msg, v') ∧ m' = m.write a v' := by
  obtain ⟨n, hn, h⟩ := Option.bind_eq_some_iff.mp h
  obtain ⟨v, hv, h⟩ := Option.bind_eq_some_iff.mp h
  obtain ⟨x, hx, heq⟩ := Option.map_eq_some_iff.mp h
  obtain ⟨rfl, rfl⟩ := Prod.mk.inj heq
  exact ⟨n, v, x.2, hn, hv, hx, rfl⟩

theorem mutate_of_edit {m : Memory} {p a : ℕ} {e : Edit} {msg : Str} {n : HashNode} {v v' : Value}
    (hn : m.node p = some n) (hv : m.data a = some v) (hrun : e.run v = some (msg, v')) :
    m.mutate (.edit p a e) = some (msg, m.write a v') := by
  rw [Memory.mutate, hn, Option.bind_some, hv, Option.bind_some, hrun]
  rfl

/-- A second step behind which a value is not that of its node, while the node is still there, does
not use the value: it replaces it, or has nothing to do with it. -/
theorem avoids_of_detached {m m' : Memory} {p a : ℕ} {e : Edit} {u : Mutation} {msg : Str}
    {n₀ : HashNode} (hmut : m.mutate u = some (msg, m')) (hattu : m.Attached u) (ha : a < m.top)
    (howner : ∀ q n, m.node q = some n → n.dataAddr = some a → q = p)
    (hn₀ : m'.node p = some n₀) (hatt : ¬m'.Attached (.edit p a e)) : m.Avoids a u := by
  cases u with
  | set => exact ha
  | del q k msg' =>
    -- the node that is freed would be `p`, which is still there
    rintro n' hq hqa
    obtain rfl := howner q n' hq hqa
    obtain ⟨n₂, -, hmut⟩ := Option.bind_eq_some_iff.mp hmut
    obtain ⟨b, -, hmut⟩ := Option.bind_eq_some_iff.mp hmut
    obtain ⟨v₂, -, heq⟩ := Option.map_eq_some_iff.mp hmut
    obtain ⟨-, rfl⟩ := Prod.mk.inj heq
    rw [Memory.free_node, if_pos rfl] at hn₀
    exact absurd hn₀ (by simp)
  | edit q b e' =>
    -- a change in place leaves the value with its node
    rintro rfl
    obtain ⟨n', hq, hqb⟩ := hattu
    obtain rfl := howner q n' hq hqb
    obtain ⟨-, -, v₂, -, -, -, rfl⟩ := mutate_edit hmut
    exact hatt ⟨n', hq, hqb⟩

/-- **A change of a replaced value moves to the left**, up to the step that replaced it. -/
theorem move_left (hcs : ∀ i, Apart (cs i)) {s₀ s : Threads n} (hs₀ : Consistent cs w s₀)
    (hrun : Run cs (Current cs) s₀ s) (hstart : ∀ i u, s₀.phase i ≠ .waiting u) {p a : ℕ} {e : Edit}
    (hphase : s.phase i = .waiting (.edit p a e)) (hsuits : s.mem.Suits (cs i) (.edit p a e))
    {s' : Threads n} (hstep : s.step cs i = some s') : Run cs (Current cs) s₀ s' := by
  induction hrun generalizing s' with
  | refl => exact absurd hphase (hstart i _)
  | @tail s₁ s j hrun hcur hj ih =>
    obtain ⟨w₁, -, hm₁, hpend₁⟩ := hs₀.run hcs hrun
    obtain ⟨w₂, -, hm, hpend⟩ := hs₀.run hcs (.tail hrun hcur hj)
    by_cases hatt : s.mem.Attached (.edit p a e)
    · -- the value is still that of the node
      refine .tail (.tail hrun hcur hj) (fun u hu => ?_) hstep
      obtain rfl := Phase.waiting.inj (hphase.symm.trans hu)
      exact Memory.look_of_pending hm (hpend i _ hphase) hsuits hatt
    · obtain ⟨hno, -⟩ | ⟨u, msg, m', hu, hmut, rfl⟩ := step_cases hstep
      · exact absurd (hphase.symm.trans hno) (by simp)
      obtain rfl := Phase.waiting.inj (hphase.symm.trans hu)
      obtain ⟨n₀, v, v', hn₀, hv, hrun', rfl⟩ := mutate_edit hmut
      -- no node has the value any more, so only the thread itself can see the change
      have howner := (hpend i _ hphase).tracks.2.2.1
      have hstale : ∀ q n', s.mem.node q = some n' → n'.dataAddr ≠ some a := by
        intro q n' hq hqa
        obtain rfl := howner q n' hq hqa
        exact hatt ⟨n', hq, hqa⟩
      rcases step_cases hj with ⟨hready, phase, hlook, rfl⟩ | ⟨uj, msgj, m₂, hwait, hmutj, rfl⟩
      · -- the other thread looks its key up
        have hij : i ≠ j := by
          rintro rfl
          have hself : Function.update s₁.phase i phase i = phase := Function.update_self _ _ _
          rw [hself.symm.trans hphase] at hlook
          exact hatt (Memory.pending_of_look hm₁ (hcs i) hlook).2.2
        have hself : Function.update s₁.phase j phase i = s₁.phase i := Function.update_of_ne hij _ _
        have hphase₁ : s₁.phase i = .waiting (.edit p a e) := hself.symm.trans hphase
        have hother : Function.update s₁.phase i (.done msg) j = s₁.phase j :=
          Function.update_of_ne hij.symm _ _
        -- a look does not depend on a stale value, so it can be made behind the change
        have hrun₁ := ih hphase₁ hsuits (step_of_mutate hphase₁ (mutate_of_edit hn₀ hv hrun'))
        have hcur₁ : Current cs ⟨s₁.mem.write a v', Function.update s₁.phase i (.done msg)⟩ j :=
          fun u hu => absurd ((hother.trans hready).symm.trans hu) (by simp)
        refine .tail hrun₁ hcur₁ ?_
        rw [step_of_look (hother.trans hready) ((Memory.look_write hstale v' (cs j)).trans hlook)]
        dsimp only
        rw [Function.update_comm hij]
      · -- the other thread makes its second step, which may be the one that replaces the value
        have hij : i ≠ j := by
          rintro rfl
          have hself : Function.update s₁.phase i (.done msgj) i = .done msgj :=
            Function.update_self _ _ _
          exact absurd (hself.symm.trans hphase) (by simp)
        have hself : Function.update s₁.phase j (.done msgj) i = s₁.phase i :=
          Function.update_of_ne hij _ _
        have hphase₁ : s₁.phase i = .waiting (.edit p a e) := hself.symm.trans hphase
        have hother : Function.update s₁.phase i (.done msg) j = s₁.phase j :=
          Function.update_of_ne hij.symm _ _
        obtain ⟨hp, ha, howner₁, -⟩ := (hpend₁ i _ hphase₁).tracks
        obtain ⟨n₁, hn₁, -⟩ := (hm₁.wf.later_mutate hmutj).old p n₀ hp hn₀
        obtain ⟨-, hsuitsj, hattj⟩ := Memory.pending_of_look hm₁ (hcs j) (hcur uj hwait)
        have havoids := avoids_of_detached hmutj hattj ha howner₁ hn₀ hatt
        have hv₁ : s₁.mem.data a = some v := (havoids.data hmutj).symm.trans hv
        have hsuits₁ : s₁.mem.Suits (cs i) (.edit p a e) := by
          refine ⟨Option.isSome_iff_exists.mpr ⟨n₁, hn₁⟩, fun v₁ hv₁ => hsuits.2 v₁ ?_⟩
          exact (havoids.data hmutj).trans hv₁
        -- the change is made first, and the other step is still current behind it
        have hrun₁ := ih hphase₁ hsuits₁ (step_of_mutate hphase₁ (mutate_of_edit hn₁ hv₁ hrun'))
        obtain ⟨w₁', -, hm₁', hpend₁'⟩ := hs₀.run hcs hrun₁
        have hcur₁ : Current cs ⟨s₁.mem.write a v', Function.update s₁.phase i (.done msg)⟩ j := by
          intro u hu
          obtain rfl := Phase.waiting.inj ((hother.trans hwait).symm.trans hu)
          exact Memory.look_of_pending hm₁' (hpend₁' j uj hu) (havoids.suits_write hsuitsj v')
            (Memory.attached_write hattj v')
        refine .tail hrun₁ hcur₁ ?_
        rw [step_of_mutate (hother.trans hwait) (havoids.mutate_write hmutj v')]
        dsimp only
        rw [Function.update_comm hij]

/-- **An undisturbed run** ends where a run of current steps does. -/
theorem current_of_undisturbed (hcs : ∀ i, Apart (cs i)) {s₀ : Threads n}
    (hs₀ : Consistent cs w s₀) (hstart : ∀ i u, s₀.phase i ≠ .waiting u)
    (hrun : Run cs (Undisturbed cs) s₀ s) : Run cs (Current cs) s₀ s := by
  induction hrun with
  | refl => exact .refl _
  | @tail s₁ s i _ hok hstep ih =>
    obtain ⟨w₁, -, hm₁, hpend₁⟩ := hs₀.run hcs ih
    rcases hphase : s₁.phase i with _ | u | _
    · exact .tail ih (fun u hu => absurd (hphase.symm.trans hu) (by simp)) hstep
    · by_cases hatt : s₁.mem.Attached u
      · refine .tail ih (fun u' hu' => ?_) hstep
        obtain rfl := Phase.waiting.inj (hphase.symm.trans hu')
        exact Memory.look_of_pending hm₁ (hpend₁ i u hphase) (hok u hphase) hatt
      · cases u with
        | set | del => exact absurd trivial hatt
        | edit p a e => exact move_left hcs hs₀ ih hstart hphase (hok _ hphase) hstep
    · exact .tail ih (fun u hu => absurd (hphase.symm.trans hu) (by simp)) hstep

/-! ### Undisturbed runs -/

/-- The commands that are done could have been executed one after another, with the replies they gave
and up to the table that is in memory, and a thread that cannot go on is one whose command is a fault
there. -/
def Serializable (cs : Fin n → Request) (w : World) (s : Threads n) : Prop :=
  ∃ (order : List (Fin n)) (rs : List Str) (w' : World),
    order.Nodup ∧ (∀ i, i ∈ order ↔ (s.replies i).isSome = true) ∧
    runAll (order.map cs) w = some (rs, w') ∧ order.map s.replies = rs.map some ∧
    s.mem.Represents w'.h ∧
    ∀ i, Undisturbed cs s i → s.step cs i = none → (s.replies i).isSome = true ∨
      execute (cs i).com (cs i).auth (cs i).currTime w' = none

/-- The second step of a pop replies with an element, and removes it. -/
def PopsElements (cs : Fin n → Request) (s : Threads n) : Prop :=
  ∀ i p a e s', s.phase i = .waiting (.edit p a e) → Undisturbed cs s i → s.step cs i = some s' →
    ∃ msg v v', s'.replies i = some msg ∧ s.mem.data a = some v ∧ s'.mem.data a = some v' ∧
      e.Takes msg v v'

/-- Commands one after another are a run of commands. -/
theorem serial_execute (rs : List Request) (w : World) :
    serial (fun r => execute r.com r.auth r.currTime) rs w = runAll rs w := by
  induction rs generalizing w with
  | nil => rfl
  | cons r rs ih =>
    rw [serial, runAll]
    simp only [ih]

theorem Consistent.serializable (hcs : ∀ i, Apart (cs i)) (hs : Consistent cs w s) :
    s.Serializable cs w := by
  obtain ⟨w', ⟨order, hnodup, hmem, rs, hserial, hreplies⟩, hm, hpend⟩ := hs
  rw [serial_execute] at hserial
  refine ⟨order, rs, w', hnodup, hmem, hserial, hreplies, hm, fun i hok hstep => ?_⟩
  rw [Threads.step] at hstep
  cases hphase : s.phase i with
  | ready =>
    rw [hphase] at hstep
    exact Or.inr (Memory.execute_of_fault hm (hcs i) (Option.map_eq_none_iff.mp hstep))
  | waiting u =>
    right
    rw [hphase] at hstep
    have hmut : s.mem.mutate u = none := Option.map_eq_none_iff.mp hstep
    by_cases hatt : s.mem.Attached u
    · have hlook := Memory.look_of_pending hm (hpend i u hphase) (hok u hphase) hatt
      have hrel := Memory.mutate_look hm (hcs i) hlook
      rw [hmut] at hrel
      cases hexec : execute (cs i).com (cs i).auth (cs i).currTime w' with
      | none => rfl
      | some x =>
        rw [hexec] at hrel
        cases hrel
    · -- a replaced value is still there
      cases u with
      | set | del => exact absurd trivial hatt
      | edit p a e =>
        obtain ⟨n₀, hn₀⟩ := Option.isSome_iff_exists.mp (hok _ hphase).1
        obtain ⟨-, -, -, v, hv, hrun⟩ := (hpend i _ hphase).tracks.2.2.2 n₀ hn₀
        obtain ⟨x, hx⟩ := Option.isSome_iff_exists.mp hrun
        have hsome : s.mem.mutate (.edit p a e) = some (x.1, s.mem.write a x.2) :=
          mutate_of_edit hn₀ hv hx
        exact absurd (hsome.symm.trans hmut) (by simp)
  | done msg => exact Or.inl (Option.isSome_iff_exists.mpr ⟨msg, replies_of_done hphase⟩)

theorem popsElements (cs : Fin n → Request) (s : Threads n) : s.PopsElements cs := by
  intro i p a e s' hphase hok hstep
  obtain ⟨hno, -⟩ | ⟨u, msg, m', hu, hmut, rfl⟩ := step_cases hstep
  · exact absurd (hphase.symm.trans hno) (by simp)
  · obtain rfl := Phase.waiting.inj (hphase.symm.trans hu)
    obtain ⟨n₀, v, v', -, hv, hrun, rfl⟩ := mutate_edit hmut
    refine ⟨msg, v, v', replies_of_done (Function.update_self _ _ _), hv, ?_,
      Edit.takes_of_run hrun ((hok _ hphase).2 v hv)⟩
    rw [Memory.write_data, if_pos rfl]

/-- **Commands whose second steps find what they need are executed one after another**, whatever the
order of the steps is. -/
theorem linearizable {n : ℕ} {cs : Fin n → Request} {m : Memory} {w : World} {s : Threads n}
    (hm : m.Represents w.h) (hcs : ∀ i, Apart (cs i))
    (hrun : Run cs (Undisturbed cs) (start n m) s) :
    s.Serializable cs w ∧ s.mem.KeysOnce ∧ s.PopsElements cs := by
  have hstart : Consistent cs w (start n m) := .start hm
  have hcur := current_of_undisturbed hcs hstart (fun i u => by simp [start]) hrun
  have hs : Consistent cs w s := hstart.run hcs hcur
  obtain ⟨w', -, hm', -⟩ := id hs
  exact ⟨hs.serializable hcs, hm'.keysOnce, popsElements cs s⟩

theorem undisturbed_of_ready (h : s.phase i = .ready) : Undisturbed cs s i :=
  fun u hu => absurd (h.symm.trans hu) (by simp)

theorem undisturbed_of_waiting {u : Mutation} (h : s.phase i = .waiting u)
    (hsuits : s.mem.Suits (cs i) u) : Undisturbed cs s i := by
  intro u' hu'
  obtain rfl := Phase.waiting.inj (h.symm.trans hu')
  exact hsuits

/-! ### Two runs -/

section

variable {ok : Threads n → Fin n → Prop} {s₀ : Threads n}

theorem Run.look (h : Run cs ok s₀ s) (i : Fin n) (phase : Phase) (hready : s.phase i = .ready)
    (hok : ok s i) (hlook : s.mem.look (cs i) = some phase) :
    Run cs ok s₀ ⟨s.mem, Function.update s.phase i phase⟩ :=
  .tail h hok (step_of_look hready hlook)

theorem Run.mutate (h : Run cs ok s₀ s) (i : Fin n) {u : Mutation} {msg : Str} {m' : Memory}
    (hwait : s.phase i = .waiting u) (hok : ok s i) (hmut : s.mem.mutate u = some (msg, m')) :
    Run cs ok s₀ ⟨m', Function.update s.phase i (.done msg)⟩ :=
  .tail h hok (step_of_mutate hwait hmut)

end

/-- A list that is replaced between the two steps of a push. -/
def crossedPush (i : Fin 3) : Request :=
  if i = 0 then ⟨lit "lmake k a", 0, 0⟩ else if i = 1 then ⟨lit "lpush k b", 0, 0⟩
  else ⟨lit "lmake k c", 0, 0⟩

/-- The push still takes effect, just before the list is replaced. -/
theorem linearizable_crossedPush : ∃ s : Threads 3, (∀ i, (s.replies i).isSome = true) ∧
    s.Serializable crossedPush (World.fresh 8000) := by
  have hcs : ∀ i, Apart (crossedPush i) := by
    simp only [Apart]
    decide
  have h₀ : Run crossedPush (Undisturbed crossedPush) (start 3 Memory.new) (start 3 Memory.new) :=
    .refl _
  have h₁ := h₀.look 0 (.waiting (.set none (lit "k") (.list [lit "a"]) 0 0 (lit "1"))) rfl
    (undisturbed_of_ready rfl) rfl
  have h₂ := h₁.mutate 0 rfl (undisturbed_of_waiting rfl rfl) rfl
  have h₃ := h₂.look 1 (.waiting (.edit 0 0 (.lpush [lit "b"]))) rfl (undisturbed_of_ready rfl) rfl
  have h₄ := h₃.look 2 (.waiting (.set (some 0) (lit "k") (.list [lit "c"]) 0 0 (lit "1"))) rfl
    (undisturbed_of_ready rfl) rfl
  have h₅ := h₄.mutate 2 rfl (undisturbed_of_waiting rfl ⟨_, rfl, by decide⟩) rfl
  have hsuits : ∀ v, some (Value.list [lit "a"]) = some v →
      (Edit.lpush [lit "b"]).applies v = true := by
    intro v hv
    obtain rfl := Option.some.inj hv
    rfl
  have h₆ := h₅.mutate 1 rfl (undisturbed_of_waiting rfl ⟨rfl, hsuits⟩) rfl
  refine ⟨_, fun i => ?_, (linearizable (Memory.Represents.new 8000) hcs h₆).1⟩
  fin_cases i <;> rfl

/-- Two threads that create the same key. -/
def crossedMake (i : Fin 2) : Request :=
  if i = 0 then ⟨lit "make k a", 0, 0⟩ else ⟨lit "make k b", 0, 0⟩

/-- **Two threads can put a key into its chain twice**: each of them finds no node, and adds one. -/
theorem not_linearizable_crossedMake : ¬ ∀ (n : ℕ) (cs : Fin n → Request) (m : Memory) (w : World)
    (s : Threads n), m.Represents w.h → (∀ i, Apart (cs i)) →
    Run cs (fun _ _ => True) (start n m) s →
    s.Serializable cs w ∧ s.mem.KeysOnce ∧ s.PopsElements cs := by
  intro h
  have hcs : ∀ i, Apart (crossedMake i) := by
    simp only [Apart]
    decide
  have h₀ : Run crossedMake (fun _ _ => True) (start 2 Memory.new) (start 2 Memory.new) := .refl _
  have h₁ := h₀.look 0 (.waiting (.set none (lit "k") (.string (lit "a")) 0 0 confirmMsg)) rfl
    trivial rfl
  have h₂ := h₁.look 1 (.waiting (.set none (lit "k") (.string (lit "b")) 0 0 confirmMsg)) rfl
    trivial rfl
  have h₃ := h₂.mutate 0 rfl trivial rfl
  have h₄ := h₃.mutate 1 rfl trivial rfl
  have honce := (h 2 crossedMake Memory.new (World.fresh 8000) _ (Memory.Represents.new 8000) hcs h₄).2.1
    (Hash.slot (lit "k"))
  have htwice : [some (lit "k"), some (lit "k")].Nodup := honce
  exact absurd htwice (by decide)

end Threads

end MuseKv
