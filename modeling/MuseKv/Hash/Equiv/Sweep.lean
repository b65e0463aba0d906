import MuseKv.Hash.Sweep
import MuseKv.Hash.Equiv.Heap

/-!
# The background expiry

A pass of `ttl_expire_background` keeps the invariant of the table, whatever `rand()` returned
(**`sweep_spec`**).  Before the pass falls into a chain, `random` is positive and the size of a chain is
subtracted only when it is smaller; in the chain it is a position; and behind the chain it is `1`, the
position of the first node of every chain that has one.  A node that goes is expired, and `del` changes its
own chain only.  Only the default value, which `read` can store, stops a pass: `del` follows its address
(`not_sweeps_unset`).
-/

namespace MuseKv

open General Hash

namespace HeapHash

/-- The invariant of a table, with the chains `c`. -/
structure Invariant (t : HeapHash) (c : Fin totalSlotNum → List (ℕ × Str × Kv)) : Prop where
  /-- Following `next_ptr` from each head collects the chains. -/
  walk : ∀ i, t.walk i = some (c i)
  /-- `size[i]` is the length of chain `i`, as an `int`. -/
  size : ∀ i, t.size i = (c i).length ∧ (c i).length < 2 ^ 31
  /-- A key is in the chain of its own hash. -/
  placed : ∀ i, ∀ x ∈ c i, hashFunc x.2.1 = (i : ℕ)
  /-- Each key is in the table once. -/
  once : ((List.finRange totalSlotNum).flatMap fun i => (c i).map fun x => x.2.1).Nodup
  /-- `prev_ptr` undoes `next_ptr`. -/
  next_prev : ∀ p q n, t.mem p = some n → n.next = some q →
    ∃ n', t.mem q = some n' ∧ n'.prev = some p
  /-- `next_ptr` undoes `prev_ptr`. -/
  prev_next : ∀ p q n, t.mem p = some n → n.prev = some q →
    ∃ n', t.mem q = some n' ∧ n'.next = some p
  /-- A head has no predecessor. -/
  head_prev : ∀ i p, t.h i = some p → ∃ n, t.mem p = some n ∧ n.prev = none
  /-- The nodes on the heap are those of the chains. -/
  used : ∀ p n, t.mem p = some n → ∃ i, p ∈ Heap.addrs (c i)
  /-- Fresh addresses are above. -/
  lt : ∀ i, ∀ p ∈ Heap.addrs (c i), p < t.top

variable {t : HeapHash} {c c' : Fin totalSlotNum → List (ℕ × Str × Kv)}
  {times : Fin totalSlotNum → Int}

/-! ### The invariant -/

theorem slot_eq_iff {k : Str} {i : Fin totalSlotNum} : slot k = i ↔ hashFunc k = (i : ℕ) := by
  rw [← slot_val, Fin.ext_iff]
  exact Int.natCast_inj.symm

theorem Invariant.slot_eq (hi : Invariant t c) {i : Fin totalSlotNum} {x : ℕ × Str × Kv}
    (hx : x ∈ c i) : slot x.2.1 = i :=
  slot_eq_iff.mpr (hi.placed i x hx)

/-- The chains are the buckets of a table. -/
theorem Invariant.wf (hi : Invariant t c) : Buckets.WF slot (fun x => x.2.1) c where
  placed _ _ := hi.slot_eq
  nodup i := (List.nodup_flatMap.mp hi.once).1 i (List.mem_finRange i)

theorem Invariant.rep (hi : Invariant t c) : Rep t c := by
  apply rep_of_chains
  · apply Heap.chains_of_walk Prod.fst hi.walk hi.next_prev hi.head_prev hi.wf.nodup
    · intro i j x hx y hy heq
      rw [← hi.slot_eq hx, ← hi.slot_eq hy, heq]
    · exact hi.lt
    · exact hi.used
  · intro i
    obtain ⟨hsize, hlt⟩ := hi.size i
    rw [hsize, wrap32_natCast hlt]

theorem Rep.invariant (hr : Rep t c) (hlt : ∀ i, (c i).length < 2 ^ 31)
    (hwf : Buckets.WF slot (fun x => x.2.1) c) : Invariant t c where
  walk := hr.walk
  size i := by
    rw [hr.size, wrap32_natCast (hlt i)]
    exact ⟨rfl, hlt i⟩
  placed i x hx := slot_eq_iff.mp (hwf.placed i x hx)
  once := hwf.nodup_flatMap (List.nodup_finRange totalSlotNum)
  next_prev _ _ _ := hr.chains.next_prev
  prev_next _ _ _ := hr.chains.prev_next
  head_prev _ _ := hr.chains.head_prev
  used := hr.used
  lt := hr.lt

/-! ### One node -/

/-- What a pass does to the chains: every node that goes is expired when its chain is examined. -/
def Expires (times : Fin totalSlotNum → Int) (c c' : Fin totalSlotNum → List (ℕ × Str × Kv)) : Prop :=
  ∀ i, (c' i).Sublist (c i) ∧ ∀ x ∈ c i, x ∉ c' i → x.2.2.isExpired (times i) = true

theorem expires_refl (c : Fin totalSlotNum → List (ℕ × Str × Kv)) : Expires times c c :=
  fun i => ⟨List.Sublist.refl (c i), fun _ hx hx' => absurd hx hx'⟩

theorem Expires.trans {c'' : Fin totalSlotNum → List (ℕ × Str × Kv)} (h : Expires times c c')
    (h' : Expires times c' c'') : Expires times c c'' := by
  intro i
  refine ⟨(h' i).1.trans (h i).1, fun x hx hx'' => ?_⟩
  by_cases hmid : x ∈ c' i
  · exact (h' i).2 x hmid hx''
  · exact (h i).2 x hx hmid

/-- `del` of an expired node keeps the invariant. -/
theorem Invariant.del (hi : Invariant t c) {i : Fin totalSlotNum} {x : ℕ × Str × Kv} (hx : x ∈ c i)
    (hexp : x.2.2.isExpired (times i) = true) (hv : x.2.2.v.isUnset = false) :
    ∃ t' c', t.del x.2.1 = some t' ∧ Invariant t' c' ∧ Expires times c c' := by
  obtain ⟨l, l', hl⟩ := List.mem_iff_append.mp hx
  obtain rfl := hi.slot_eq hx
  have hfirst : ∀ y ∈ l, y.2.1 ≠ x.2.1 := by
    intro y hy heq
    have hnodup := hi.wf.nodup (slot x.2.1)
    rw [hl, List.map_append, List.map_cons, List.nodup_append] at hnodup
    exact hnodup.2.2 _ (List.mem_map_of_mem hy) _ (List.mem_cons_self ..) heq
  have hsub : ∀ j, (Function.update c (slot x.2.1) (l ++ l') j).Sublist (c j) := by
    intro j
    rcases eq_or_ne j (slot x.2.1) with rfl | hj
    · rw [Function.update_self, hl]
      exact (List.sublist_cons_self x l').append_left l
    · rw [Function.update_of_ne hj]
  obtain ⟨t', ht', hrep⟩ := hi.rep.del hl hfirst hv
  refine ⟨t', _, ht', hrep.invariant (fun j => ?_) (hi.wf.sublist hsub), fun j => ⟨hsub j, ?_⟩⟩
  · exact lt_of_le_of_lt (hsub j).length_le (hi.size j).2
  · intro y hy hy'
    rcases eq_or_ne j (slot x.2.1) with rfl | hj
    · -- the only node that is not in `l ++ l'` is `x`
      rw [Function.update_self, List.mem_append] at hy'
      rw [hl, List.mem_append, List.mem_cons] at hy
      rcases hy with hy | rfl | hy
      · exact absurd (Or.inl hy) hy'
      · exact hexp
      · exact absurd (Or.inr hy) hy'
    · rw [Function.update_of_ne hj] at hy'
      exact absurd hy hy'

/-- `del` of the default value is a fault. -/
theorem Invariant.del_unset (hi : Invariant t c) {i : Fin totalSlotNum} {x : ℕ × Str × Kv}
    (hx : x ∈ c i) (hv : x.2.2.v.isUnset = true) : t.del x.2.1 = none := by
  obtain rfl := hi.slot_eq hx
  obtain ⟨last, hseg⟩ := hi.rep.seg (slot x.2.1)
  obtain ⟨n, hn, hval⟩ := hseg.cell hx
  have hfind := Buckets.find?_eq_some_of_mem (fun y : ℕ × Str × Kv => y.2.1) (hi.wf.nodup _) hx
  rw [HeapHash.del, hi.rep.findNode, hfind, Option.map_some, Option.bind_some]
  simp only [hn, Option.bind_some, hval, hv, ↓reduceIte]

/-- The node in a chain of positive size where `random` points. -/
theorem Invariant.nth (hi : Invariant t c) {i : Fin totalSlotNum} {random : Int} (hpos : 1 ≤ random)
    (hle : random ≤ t.size i) : ∃ n, t.mem.nth (random - 1).toNat (t.h i) = some n ∧
      ∃ p, (p, n.val) ∈ c i := by
  obtain ⟨last, hseg⟩ := hi.rep.seg i
  have hlt : (random - 1).toNat < (c i).length := by
    rw [(hi.size i).1] at hle
    omega
  obtain ⟨n, hn, hval⟩ := hseg.nth hlt
  refine ⟨n, hn, ((c i)[(random - 1).toNat]).1, ?_⟩
  rw [hval]
  exact List.getElem_mem hlt

/-! ### The pass -/

/-- How a pass ends: with the invariant, or in `del` of an expired node with the default value. -/
def Ends (times : Fin totalSlotNum → Int) (c : Fin totalSlotNum → List (ℕ × Str × Kv))
    (result : Except SweepFault HeapHash) : Prop :=
  (∃ t' c', result = .ok t' ∧ Invariant t' c' ∧ Expires times c c') ∨
    (result = .error .del ∧
      ∃ i, ∃ x ∈ c i, x.2.2.isExpired (times i) = true ∧ x.2.2.v.isUnset = true)

/-- A pass that goes on from chains with fewer nodes. -/
theorem Ends.of_expires {result : Except SweepFault HeapHash} (h : Ends times c' result)
    (hc : Expires times c c') : Ends times c result := by
  rcases h with ⟨t', c'', hok, hi, hexp⟩ | ⟨hdel, i, x, hx, hexp⟩
  · exact Or.inl ⟨t', c'', hok, hi, hc.trans hexp⟩
  · exact Or.inr ⟨hdel, i, x, (hc i).1.subset hx, hexp⟩

/-- **The loop** keeps `1 ≤ random` and the invariant. -/
theorem Invariant.sweepFrom (hi : Invariant t c) {is : List (Fin totalSlotNum)} {random : Int}
    (hpos : 1 ≤ random) (hlt : random < 2 ^ 31) : Ends times c (sweepFrom times is random t) := by
  induction is generalizing t c random with
  | nil => exact Or.inl ⟨t, c, rfl, hi, expires_refl c⟩
  | cons i is ih =>
    obtain ⟨hsize, hcount⟩ := hi.size i
    rw [HeapHash.sweepFrom, wrap32_of_bounds (by omega) (by omega)]
    split_ifs with hsub
    · exact ih hi (by omega) (by omega)
    · obtain ⟨n, hn, p, hx⟩ := hi.nth hpos (by omega : random ≤ t.size i)
      have hmin : min random 1 = 1 := min_eq_right hpos
      rw [hn, hmin]
      show Ends times c (if n.val.2.isExpired (times i) then _ else _)
      split_ifs with hexp
      · cases hv : n.val.2.v.isUnset with
        | true =>
          rw [hi.del_unset hx hv]
          exact Or.inr ⟨rfl, i, _, hx, hexp, hv⟩
        | false =>
          obtain ⟨t', c', ht', hi', hc'⟩ := hi.del hx hexp hv
          rw [ht']
          exact (ih hi' le_rfl (by norm_num)).of_expires hc'
      · exact ih hi le_rfl (by norm_num)

/-- **A pass**, whatever `rand()` returned and whenever its chains are examined. -/
theorem sweep_spec (hi : Invariant t c) (rand : ℕ) (times : Fin totalSlotNum → Int) :
    Ends times c (sweep times rand t) := by
  rw [sweep]
  show Ends times c (if wrap32 (t.getSize - 1) ≤ 0 then _ else _)
  split_ifs with hbound
  · exact Or.inl ⟨t, c, rfl, hi, expires_refl c⟩
  · have hnonneg := Int.emod_nonneg rand (by omega : wrap32 (t.getSize - 1) ≠ 0)
    have hmod := Int.emod_lt_of_pos rand (by omega : 0 < wrap32 (t.getSize - 1))
    have hint := (wrap32_bounds (t.getSize - 1)).2
    exact hi.sweepFrom (by omega) (by omega)

/-! ### Two nodes -/

/-- A table with two nodes, in the chain of the first key. -/
def two (k k' : Str) (n n' : Kv) : HeapHash where
  mem p :=
    if p = 0 then some ⟨(k, n), some 1, none⟩
    else if p = 1 then some ⟨(k', n'), none, some 0⟩
    else none
  top := 2
  h := Function.update (fun _ => none) (slot k) (some 0)
  size := Function.update (fun _ => 0) (slot k) 2

/-- The chains of `two`. -/
def twoChains (k k' : Str) (n n' : Kv) : Fin totalSlotNum → List (ℕ × Str × Kv) :=
  Function.update (fun _ => []) (slot k) [(0, k, n), (1, k', n')]

theorem invariant_two {k k' : Str} (hslot : slot k' = slot k) (hne : k ≠ k') (n n' : Kv) :
    Invariant (two k k' n n') (twoChains k k' n n') := by
  -- the chain of the two keys, and the others, which are empty
  have hcases : ∀ i, twoChains k k' n n' i = [(0, k, n), (1, k', n')] ∧ i = slot k ∨
      twoChains k k' n n' i = [] := by
    intro i
    rcases eq_or_ne i (slot k) with rfl | hi
    · exact Or.inl ⟨Function.update_self .., rfl⟩
    · exact Or.inr (Function.update_of_ne hi ..)
  have hchains : Heap.Chains (two k k' n n').mem (two k k' n n').top (two k k' n n').h
      (twoChains k k' n n') := by
    have hseg : (two k k' n n').mem.Seg none (some 0) [(0, k, n), (1, k', n')] (some 1) none :=
      ⟨rfl, some 1, rfl, rfl, none, rfl, rfl, rfl⟩
    apply (Heap.chains_nil 0).update (i := slot k) hseg
    · simp
    · exact fun p _ => Or.inr p.zero_le
    · intro p hp
      show p < 2
      simp at hp
      omega
    · exact Nat.zero_le 2
    · intro p _ hp
      simp only [List.map_cons, List.map_nil, List.mem_cons, List.not_mem_nil, or_false, not_or] at hp
      simp [two, hp.1, hp.2]
    · exact fun p hp => absurd hp (by simp)
  apply (rep_of_chains hchains fun i => ?_).invariant
  · intro i
    rcases hcases i with ⟨h, -⟩ | h <;> rw [h] <;> simp
  · refine ⟨fun i x hx => ?_, fun i => ?_⟩
    · rcases hcases i with ⟨h, rfl⟩ | h
      · rw [h, List.mem_pair] at hx
        rcases hx with rfl | rfl
        · rfl
        · exact hslot
      · rw [h] at hx
        exact absurd hx (by simp)
    · rcases hcases i with ⟨h, -⟩ | h <;> rw [h] <;> simp [hne]
  · show Function.update (fun _ => (0 : Int)) (slot k) 2 i = wrap32 (twoChains k k' n n' i).length
    rcases hcases i with ⟨h, rfl⟩ | h
    · rw [h, Function.update_self]
      simp only [List.length_cons, List.length_nil]
      decide
    · rw [h, Function.update_of_ne]
      · rfl
      · rintro rfl
        simp [twoChains] at h

/-- The first key being in the first chain. -/
theorem flatMap_twoChains {k : Str} (hzero : slot k = 0) (k' : Str) (n n' : Kv) :
    (List.finRange totalSlotNum).flatMap (twoChains k k' n n') = [(0, k, n), (1, k', n')] := by
  rw [List.finRange_succ, List.flatMap_cons, twoChains, hzero, Function.update_self, List.flatMap_map]
  simp [Fin.succ_ne_zero]

/-- A pass over `two` examines the first node, and stops there if its value was never set. -/
theorem sweep_two {k k' : Str} (hslot : slot k' = slot k) (hne : k ≠ k') (hzero : slot k = 0) {n : Kv}
    (n' : Kv) (rand : ℕ) (hexp : n.isExpired (times 0) = true) (hv : n.v.isUnset = true) :
    sweep times rand (two k k' n n') = .error .del := by
  have hi := invariant_two hslot hne n n'
  have hsize : (two k k' n n').getSize = 2 := by
    rw [hi.rep.getSize, flatMap_twoChains hzero]
    simp only [List.length_cons, List.length_nil]
    decide
  have hdel : (two k k' n n').del k = none := by
    apply hi.del_unset (i := 0) (x := (0, k, n))
    · rw [twoChains, hzero, Function.update_self]
      exact List.mem_cons_self ..
    · exact hv
  have hfirst : (two k k' n n').size 0 = 2 := by
    show Function.update (fun _ => (0 : Int)) (slot k) 2 0 = 2
    rw [hzero, Function.update_self]
  have hhead : (two k k' n n').h 0 = some 0 := by
    show Function.update (fun _ => none) (slot k) (some 0) 0 = some 0
    rw [hzero, Function.update_self]
  have hbound : wrap32 ((2 : Int) - 1) = 1 := by decide
  have hrandom : ¬ wrap32 ((rand : Int) % 1 + 1 - 2) > 0 := by
    rw [Int.emod_one]
    decide
  have hnth : (two k k' n n').mem.nth ((0 : Int) + 1 - 1).toNat (some 0) = some ⟨(k, n), some 1, none⟩ :=
    rfl
  have hrange : List.finRange totalSlotNum = 0 :: (List.finRange 10006).map Fin.succ :=
    List.finRange_succ
  unfold sweep
  simp only [hsize, hbound]
  rw [if_neg (by decide), hrange, HeapHash.sweepFrom, hfirst, if_neg hrandom, Int.emod_one, hhead, hnth]
  simp only [hexp, ↓reduceIte, hdel]

/-- An entry that expired at the time `1`. -/
def expiredEntry (v : Value) : Kv := { v := v, ttl := 1, authr := 0, authw := 0 }

/-- Two expired strings, at the time `5`. -/
theorem sweep_spec_two : ∃ t' c', sweep (fun _ => 5) 7 (two (lit "@") (lit "@@")
      (expiredEntry (.string (lit "x"))) (expiredEntry (.string (lit "y")))) = .ok t' ∧
    Invariant t' c' ∧ Expires (fun _ => 5) (twoChains (lit "@") (lit "@@")
      (expiredEntry (.string (lit "x"))) (expiredEntry (.string (lit "y")))) c' := by
  have hslot : slot (lit "@@") = slot (lit "@") := by decide
  have hi := invariant_two hslot (by decide)
    (expiredEntry (.string (lit "x"))) (expiredEntry (.string (lit "y")))
  rcases sweep_spec hi 7 fun _ => 5 with hok | ⟨-, i, x, hx, -, hunset⟩
  · exact hok
  · -- both values are set
    exfalso
    unfold twoChains at hx
    rcases eq_or_ne i (slot (lit "@")) with rfl | hne
    · rw [Function.update_self, List.mem_pair] at hx
      rcases hx with rfl | rfl <;> exact absurd hunset (by decide)
    · rw [Function.update_of_ne hne] at hx
      exact absurd hx (by simp)

/-- **An expired entry with the default value** stops the pass. -/
theorem not_sweeps_unset : ¬ ∀ (t : HeapHash) (c : Fin totalSlotNum → List (ℕ × Str × Kv)) (rand : ℕ)
    (times : Fin totalSlotNum → Int), Invariant t c →
    2 ≤ ((List.finRange totalSlotNum).flatMap c).length →
    ∃ t' c', sweep times rand t = .ok t' ∧ Invariant t' c' ∧ Expires times c c' := by
  intro hall
  have hzero : slot (lit "@") = 0 := by decide
  have hslot : slot (lit "@@") = slot (lit "@") := by decide
  have hlen : 2 ≤ ((List.finRange totalSlotNum).flatMap (twoChains (lit "@") (lit "@@")
      (expiredEntry .unset) (expiredEntry .unset))).length := by
    rw [flatMap_twoChains hzero]
    exact le_rfl
  obtain ⟨t', c', hok, -⟩ := hall _ _ 0 (fun _ => 5) (invariant_two hslot (by decide) _ _) hlen
  rw [sweep_two hslot (by decide) hzero (expiredEntry .unset) 0 (by decide) (by decide)] at hok
  exact absurd hok (by simp)

end HeapHash

end MuseKv
