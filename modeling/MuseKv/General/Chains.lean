import MuseKv.General.Chain
import Mathlib.Data.Finset.Card
import Mathlib.Data.Finset.Range

/-!
# Several chains on one heap

`Chains m top h b`: the heap `m` holds the chains `b`, one for each index, from the heads `h`, on disjoint
addresses below `top`, and nothing else.  Pushing at the address `top`, unlinking and writing a value
change one chain and keep the others (`Chains.pushFront`, `Chains.unlink`, `Chains.setVal`), because each
touches the addresses of its own chain and a fresh one only (`Chains.update`).
-/

namespace MuseKv.General.Heap

variable {ι α : Type*}

/-- The heap holds the chains `b`, and nothing else. -/
structure Chains (m : Heap ℕ α) (top : ℕ) (h : ι → Option ℕ) (b : ι → List (ℕ × α)) : Prop where
  seg : ∀ i, ∃ last, m.Seg none (h i) (b i) last none
  nodup : ∀ i, (addrs (b i)).Nodup
  disjoint : ∀ i j p, p ∈ addrs (b i) → p ∈ addrs (b j) → i = j
  lt : ∀ i, ∀ p ∈ addrs (b i), p < top
  used : ∀ p c, m p = some c → ∃ i, p ∈ addrs (b i)

variable {m mem : Heap ℕ α} {top : ℕ} {h : ι → Option ℕ} {b : ι → List (ℕ × α)} {i : ι}

/-- Nothing on the heap. -/
theorem chains_nil (top : ℕ) :
    Chains (fun _ => none : Heap ℕ α) top (fun _ : ι => none) (fun _ => []) where
  seg _ := ⟨none, rfl, rfl⟩
  nodup _ := List.nodup_nil
  disjoint _ _ _ hp := absurd hp (by simp)
  lt _ _ hp := absurd hp (by simp)
  used _ _ hp := absurd hp (by simp)

/-- **Chains from their links**: every value has a key of its own, so that two cells on the chains never
share an address. -/
theorem chains_of_walk {κ : Type*} (key : α → κ) (hwalk : ∀ i, m.walk top (h i) = some (b i))
    (hnext : ∀ p q c, m p = some c → c.next = some q → ∃ c', m q = some c' ∧ c'.prev = some p)
    (hprev : ∀ i p, h i = some p → ∃ c, m p = some c ∧ c.prev = none)
    (hkeys : ∀ i, ((b i).map fun x => key x.2).Nodup)
    (hapart : ∀ i j, ∀ x ∈ b i, ∀ y ∈ b j, key x.2 = key y.2 → i = j)
    (hlt : ∀ i, ∀ p ∈ addrs (b i), p < top) (hused : ∀ p c, m p = some c → ∃ i, p ∈ addrs (b i)) :
    Chains m top h b := by
  have hseg : ∀ i, ∃ last, m.Seg none (h i) (b i) last none :=
    fun i => seg_of_walk (hwalk i) hnext (hprev i)
  -- the value of an address is that of its cell
  have hval : ∀ i, ∀ x ∈ b i, (m x.1).map (fun c => key c.val) = some (key x.2) := by
    intro i x hx
    obtain ⟨last, hs⟩ := hseg i
    obtain ⟨c, hc, hcx⟩ := hs.cell hx
    rw [hc, Option.map_some, hcx]
  refine ⟨hseg, fun i => ?_, fun i j p hp hp' => ?_, hlt, hused⟩
  · apply List.Nodup.of_map fun p => (m p).map fun c => key c.val
    have hsome := (hkeys i).map (Option.some_injective κ)
    rw [List.map_map] at hsome ⊢
    exact (List.map_congr_left (hval i)).symm ▸ hsome
  · obtain ⟨x, hx, rfl⟩ := List.mem_map.mp hp
    obtain ⟨y, hy, heq⟩ := List.mem_map.mp hp'
    have hkey := (hval j y hy).symm.trans (heq ▸ hval i x hx)
    exact hapart i j x hx y hy (Option.some.inj hkey).symm

/-! ### Loops -/

/-- The number of addresses handed out is enough fuel for every chain. -/
theorem Chains.length_le (hc : Chains m top h b) (i : ι) : (b i).length ≤ top := by
  have hsub : (addrs (b i)).toFinset ⊆ Finset.range top := by
    intro p hp
    exact Finset.mem_range.mpr (hc.lt i p (List.mem_toFinset.mp hp))
  have hcard := Finset.card_le_card hsub
  rwa [List.toFinset_card_of_nodup (hc.nodup i), Finset.card_range, List.length_map] at hcard

theorem Chains.walk (hc : Chains m top h b) (i : ι) : m.walk top (h i) = some (b i) := by
  obtain ⟨last, hseg⟩ := hc.seg i
  exact hseg.walk (hc.length_le i)

theorem Chains.search (hc : Chains m top h b) (test : α → Bool) (i : ι) :
    m.search test top (h i) = some (((b i).find? fun x => test x.2).map Prod.fst) := by
  obtain ⟨last, hseg⟩ := hc.seg i
  exact hseg.search test (hc.length_le i)

/-- In a list of cells that differ in their addresses and in their keys, the address of a cell and its
key pick out the same cell. -/
theorem addr_eq_iff_key_eq {κ : Type*} {key : α → κ} {l : List (ℕ × α)} {x y : ℕ × α}
    (haddrs : (addrs l).Nodup) (hkeys : (l.map fun x => key x.2).Nodup) (hx : x ∈ l) (hy : y ∈ l) :
    y.1 = x.1 ↔ key y.2 = key x.2 := by
  constructor
  · intro heq
    rw [List.inj_on_of_nodup_map haddrs hy hx heq]
  · intro heq
    rw [List.inj_on_of_nodup_map hkeys hy hx heq]

/-! ### Links -/

theorem Chains.next_prev (hc : Chains m top h b) {p q : ℕ} {c : Cell ℕ α} (hp : m p = some c)
    (hq : c.next = some q) : ∃ c', m q = some c' ∧ c'.prev = some p := by
  obtain ⟨i, hi⟩ := hc.used p c hp
  obtain ⟨last, hseg⟩ := hc.seg i
  exact hseg.next_prev hi hp hq

theorem Chains.prev_next (hc : Chains m top h b) {p q : ℕ} {c : Cell ℕ α} (hp : m p = some c)
    (hq : c.prev = some q) : ∃ c', m q = some c' ∧ c'.next = some p := by
  obtain ⟨i, hi⟩ := hc.used p c hp
  obtain ⟨last, hseg⟩ := hc.seg i
  rcases hseg.prev_next hi hp hq with ⟨hnone, -⟩ | hn
  · exact absurd hnone (by simp)
  · exact hn

theorem Chains.head_prev (hc : Chains m top h b) {p : ℕ} (hp : h i = some p) :
    ∃ c, m p = some c ∧ c.prev = none := by
  obtain ⟨last, hseg⟩ := hc.seg i
  exact hseg.head_prev hp

/-! ### Changes -/

variable [DecidableEq ι]

/-- Lists on disjoint addresses stay disjoint when one of them changes, if its new addresses are in none
of the others. -/
theorem disjoint_update (hdisj : ∀ i j p, p ∈ addrs (b i) → p ∈ addrs (b j) → i = j)
    {l : List (ℕ × α)} (hother : ∀ j, j ≠ i → ∀ p ∈ addrs (b j), p ∉ addrs l) (j j' : ι) (p : ℕ)
    (hp : p ∈ addrs (Function.update b i l j)) (hp' : p ∈ addrs (Function.update b i l j')) :
    j = j' := by
  rcases eq_or_ne j i with rfl | hj
  · rcases eq_or_ne j' j with rfl | hj'
    · rfl
    · rw [Function.update_self] at hp
      rw [Function.update_of_ne hj'] at hp'
      exact absurd hp (hother j' hj' p hp')
  · rcases eq_or_ne j' i with rfl | hj'
    · rw [Function.update_self] at hp'
      rw [Function.update_of_ne hj] at hp
      exact absurd hp' (hother j hj p hp)
    · rw [Function.update_of_ne hj] at hp
      rw [Function.update_of_ne hj'] at hp'
      exact hdisj j j' p hp hp'

/-- **A change of one chain** on its own addresses and fresh ones. -/
theorem Chains.update (hc : Chains m top h b) {top' : ℕ} {head last : Option ℕ} {l : List (ℕ × α)}
    (hseg : mem.Seg none head l last none) (hnodup : (addrs l).Nodup)
    (hold : ∀ p ∈ addrs l, p ∈ addrs (b i) ∨ top ≤ p) (hlt : ∀ p ∈ addrs l, p < top')
    (htop : top ≤ top') (hframe : ∀ p, p ∉ addrs (b i) → p ∉ addrs l → mem p = m p)
    (hfree : ∀ p ∈ addrs (b i), p ∉ addrs l → mem p = none) :
    Chains mem top' (Function.update h i head) (Function.update b i l) := by
  -- an address of another chain is neither in the old chain nor in the new one
  have hother : ∀ j, j ≠ i → ∀ p ∈ addrs (b j), p ∉ addrs (b i) ∧ p ∉ addrs l := by
    intro j hj p hp
    have hpi : p ∉ addrs (b i) := fun hpi => hj (hc.disjoint j i p hp hpi)
    refine ⟨hpi, fun hpl => ?_⟩
    rcases hold p hpl with h | h
    · exact hpi h
    · exact absurd (hc.lt j p hp) (by omega)
  constructor
  · intro j
    rcases eq_or_ne j i with rfl | hj
    · simp only [Function.update_self]
      exact ⟨last, hseg⟩
    · simp only [Function.update_of_ne hj]
      obtain ⟨last, hseg⟩ := hc.seg j
      exact ⟨last, hseg.congr fun p hp => hframe p (hother j hj p hp).1 (hother j hj p hp).2⟩
  · intro j
    rcases eq_or_ne j i with rfl | hj
    · rwa [Function.update_self]
    · rw [Function.update_of_ne hj]
      exact hc.nodup j
  · exact disjoint_update hc.disjoint fun j hj p hp => (hother j hj p hp).2
  · intro j p hp
    rcases eq_or_ne j i with rfl | hj
    · rw [Function.update_self] at hp
      exact hlt p hp
    · rw [Function.update_of_ne hj] at hp
      exact (hc.lt j p hp).trans_le htop
  · intro p c hpc
    by_cases hpl : p ∈ addrs l
    · exact ⟨i, by rwa [Function.update_self]⟩
    · by_cases hpi : p ∈ addrs (b i)
      · exact absurd hpc (by simp [hfree p hpi hpl])
      · -- a cell that was there before is on the chain that it was on
        obtain ⟨j, hp⟩ := hc.used p c ((hframe p hpi hpl).symm.trans hpc)
        have hj : j ≠ i := by
          rintro rfl
          exact hpi hp
        exact ⟨j, by rwa [Function.update_of_ne hj]⟩

/-- **Pushing** a new cell in front of a chain. -/
theorem Chains.pushFront (hc : Chains m top h b) (i : ι) (a : α) :
    ∃ m', m.pushFront (h i) top a = some (m', some top) ∧
      Chains m' (top + 1) (Function.update h i (some top)) (Function.update b i ((top, a) :: b i)) := by
  obtain ⟨last, hseg⟩ := hc.seg i
  have hfresh : top ∉ addrs (b i) := fun hmem => absurd (hc.lt _ _ hmem) (lt_irrefl _)
  obtain ⟨m', last', hpush, hseg', hframe⟩ := hseg.pushFront (hc.nodup i) hfresh a
  refine ⟨m', hpush, hc.update hseg' (List.nodup_cons.mpr ⟨hfresh, hc.nodup i⟩) ?_ ?_ (Nat.le_succ _)
    (fun p _ hp => hframe p hp) fun p hp hp' => absurd (List.mem_cons_of_mem _ hp) hp'⟩
  · intro p hp
    rcases List.mem_cons.mp hp with rfl | hp
    · exact Or.inr le_rfl
    · exact Or.inl hp
  · intro p hp
    rcases List.mem_cons.mp hp with rfl | hp
    · exact Nat.lt_succ_self _
    · exact (hc.lt _ p hp).trans (Nat.lt_succ_self _)

/-- **Writing a value** to a cell of a chain. -/
theorem Chains.setVal (hc : Chains m top h b) {p : ℕ} (hp : p ∈ addrs (b i)) (f : α → α) :
    ∃ m', m.setVal p f = some m' ∧ Chains m' top h
      (Function.update b i ((b i).map fun x => if x.1 = p then (x.1, f x.2) else x)) := by
  obtain ⟨last, hseg⟩ := hc.seg i
  obtain ⟨m', hset, hseg', hframe⟩ := hseg.setVal (hc.nodup i) hp f
  set l := (b i).map fun x => if x.1 = p then (x.1, f x.2) else x with hl
  have haddrs : addrs l = addrs (b i) := by
    rw [hl, addrs, List.map_map]
    refine List.map_congr_left fun x _ => ?_
    rw [Function.comp_apply]
    split_ifs
    · rfl
    · rfl
  have hchains := hc.update (i := i) hseg' (haddrs ▸ hc.nodup i) (fun q hq => Or.inl (haddrs ▸ hq))
    (fun q hq => hc.lt i q (haddrs ▸ hq)) le_rfl
    (fun q hq _ => hframe q fun hqp => hq (hqp ▸ hp)) fun q hq hq' => absurd (haddrs ▸ hq) hq'
  rw [Function.update_eq_self] at hchains
  exact ⟨m', hset, hchains⟩

/-- **Unlinking** a cell of a chain. -/
theorem Chains.unlink (hc : Chains m top h b) {l l' : List (ℕ × α)} {p : ℕ} {a : α}
    (hl : b i = l ++ (p, a) :: l') :
    ∃ m' head, m.unlink (h i) p = some (m', head) ∧
      Chains m' top (Function.update h i head) (Function.update b i (l ++ l')) := by
  obtain ⟨last, hseg⟩ := hc.seg i
  have hnodup := hc.nodup i
  rw [hl] at hseg hnodup
  obtain ⟨m', head, last', hunlink, hseg', hnone, hframe⟩ := hseg.unlink hnodup
  have hsub : (addrs (l ++ l')).Sublist (addrs (b i)) := by
    rw [hl]
    exact ((List.sublist_cons_self _ l').append_left l).map Prod.fst
  -- one address of the chain goes, and the rest stays
  have hmem : ∀ q, q ∈ addrs (b i) ↔ q = p ∨ q ∈ addrs (l ++ l') := by
    intro q
    rw [hl, addrs, addrs, List.map_append, List.map_append, List.map_cons, List.mem_append,
      List.mem_append, List.mem_cons]
    tauto
  refine ⟨m', head, hunlink, hc.update hseg' ((hc.nodup i).sublist hsub)
    (fun q hq => Or.inl (hsub.subset hq)) (fun q hq => hc.lt i q (hsub.subset hq)) le_rfl ?_ ?_⟩
  · intro q hq _
    rw [hl] at hq
    exact hframe q hq
  · intro q hq hq'
    rcases (hmem q).mp hq with rfl | hq
    · exact hnone
    · exact absurd hq hq'

end MuseKv.General.Heap
