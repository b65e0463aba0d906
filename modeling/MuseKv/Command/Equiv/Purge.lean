import MuseKv.Command.Equiv.Execute
import MuseKv.Command.LazyExpiry

/-!
# A table without its expired entries

`Hash.purge t` removes the entries that are expired at `t`.  An action under a key whose entry is not
expired does the same to a table and to the purged one (`apply_purge`).
-/

namespace MuseKv

open General Kvstore

namespace Hash

variable {h h' : Hash} {k : Str} {n : Kv} {t : Int}

theorem eq_of_chains (hc : h.h = h'.h) (hb : h.portNum = h'.portNum ∧ h.startNum = h'.startNum ∧
    h.endNum = h'.endNum) : h = h' := by
  cases h
  cases h'
  obtain ⟨rfl, rfl, rfl⟩ := hb
  subst hc
  rfl

/-! ### Lookups -/

theorem findNode_purge (h : Hash) (t : Int) (k : Str) :
    (h.purge t).findNode k = (h.findNode k).filter fun n => !n.isExpired t := by
  rw [findNode, purge, h.wf.find_filter, findNode]
  cases Buckets.find slot Prod.fst h.h k with
  | none => rfl
  | some e =>
    rw [Option.filter_some, Option.map_some, Option.filter_some]
    split_ifs
    · rfl
    · rfl

theorem findNode_purge_of_live (hlive : ∀ n, h.findNode k = some n → n.isExpired t = false) :
    (h.purge t).findNode k = h.findNode k := by
  rw [findNode_purge]
  cases hk : h.findNode k with
  | none => rfl
  | some n => rw [Option.filter_some, hlive n hk, if_pos (by rfl)]

theorem findNode_purge_of_expired (hk : h.findNode k = some n) (hexp : n.isExpired t = true) :
    (h.purge t).findNode k = none := by
  rw [findNode_purge, hk, Option.filter_some, hexp, if_neg (by simp)]

theorem purge_purge (h : Hash) (t : Int) : (h.purge t).purge t = h.purge t :=
  eq_of_chains (Buckets.filter_filter_self _) ⟨rfl, rfl, rfl⟩

theorem entries_purge (h : Hash) (t : Int) :
    (h.purge t).entries = h.entries.filter fun e => !e.2.isExpired t := by
  rw [entries, entries, List.filter_flatMap]
  rfl

/-! ### Actions -/

/-- An entry of a key that is live passes the purge. -/
theorem live_of_mem (hlive : ∀ n, h.findNode k = some n → n.isExpired t = false) :
    ∀ i, ∀ e ∈ h.h i, e.1 = k → (!e.2.isExpired t) = true := by
  rintro i ⟨k', n⟩ he rfl
  have hfind : h.findNode k' = some n :=
    findNode_eq_some_iff.mpr (List.mem_flatMap.mpr ⟨i, List.mem_finRange i, he⟩)
  rw [hlive n hfind]
  rfl

theorem purge_alter (hlive : ∀ n, h.findNode k = some n → n.isExpired t = false) (f : Kv → Kv) :
    (h.alter k f).purge t = ((h.purge t).alter k f).purge t :=
  eq_of_chains (Buckets.filter_alter (live_of_mem hlive) _) ⟨rfl, rfl, rfl⟩

theorem purge_set (hlive : ∀ n, h.findNode k = some n → n.isExpired t = false) (v : Value)
    (r w : UInt8) : (h.set k v r w).purge t = ((h.purge t).set k v r w).purge t := by
  have hpurge := findNode_purge_of_live hlive
  cases hk : h.findNode k with
  | none =>
    rw [hk] at hpurge
    have hbounds : ∀ g : Hash, (g.set k v r w).portNum = g.portNum ∧
        (g.set k v r w).startNum = g.startNum ∧ (g.set k v r w).endNum = g.endNum :=
      fun g => apply_bounds (a := .set v r w) rfl
    refine eq_of_chains ?_ ?_
    · change Buckets.filter _ (h.set k v r w).h = Buckets.filter _ ((h.purge t).set k v r w).h
      rw [set_of_none hk, set_of_none hpurge]
      exact Buckets.filter_push _
    · change (h.set k v r w).portNum = ((h.purge t).set k v r w).portNum ∧
        (h.set k v r w).startNum = ((h.purge t).set k v r w).startNum ∧
        (h.set k v r w).endNum = ((h.purge t).set k v r w).endNum
      obtain ⟨hport, hstart, hend⟩ := hbounds h
      obtain ⟨hport', hstart', hend'⟩ := hbounds (h.purge t)
      exact ⟨hport.trans hport'.symm, hstart.trans hstart'.symm, hend.trans hend'.symm⟩
  | some n =>
    rw [hk] at hpurge
    rw [set_of_some hk, set_of_some hpurge, purge_alter hlive]

theorem del_eq (h : Hash) (k : Str) : h.del k = (h.findNode k).bind fun n =>
    if n.v.isUnset then none else some { h with
      h := Buckets.erase slot Prod.fst h.h k
      wf := h.wf.erase k } := by
  rw [del]
  cases h.findNode k with
  | none => rfl
  | some n => rfl

/-- **An action on a live entry** does the same to the purged table. -/
theorem apply_purge (hlive : ∀ n, h.findNode k = some n → n.isExpired t = false) (a : KeyAction) :
    Option.Rel (fun x y : Hash => x.purge t = y.purge t) (h.apply k a) ((h.purge t).apply k a) := by
  cases a with
  | keep => exact .some (purge_purge h t).symm
  | del =>
    change Option.Rel _ (h.del k) ((h.purge t).del k)
    rw [del_eq, del_eq, findNode_purge_of_live hlive]
    cases h.findNode k with
    | none => exact .none
    | some n =>
      rw [Option.bind_some, Option.bind_some]
      split_ifs
      · exact .none
      · exact .some (eq_of_chains (h.wf.filter_erase _ k) ⟨rfl, rfl, rfl⟩)
  | set v r w => exact .some (purge_set hlive v r w)
  | write n => exact .some (purge_alter hlive _)

/-- **Removing an expired entry** does not show behind the purge. -/
theorem del_of_expired (hk : h.findNode k = some n) (hexp : n.isExpired t = true) :
    h.del k = none ∧ n.v.isUnset = true ∨
      ∃ h', h.del k = some h' ∧ n.v.isUnset = false ∧ h'.purge t = h.purge t := by
  have hmem : ∀ i, ∀ e ∈ h.h i, e.1 = k → (!e.2.isExpired t) = false := by
    rintro i ⟨k', m⟩ he rfl
    have hfind : h.findNode k' = some m :=
      findNode_eq_some_iff.mpr (List.mem_flatMap.mpr ⟨i, List.mem_finRange i, he⟩)
    obtain rfl := Option.some.inj (hk.symm.trans hfind)
    rw [hexp]
    rfl
  rw [del_eq, hk, Option.bind_some]
  split_ifs with hv
  · exact Or.inl ⟨rfl, hv⟩
  · refine Or.inr ⟨_, rfl, by simpa using hv, ?_⟩
    exact eq_of_chains (h.wf.filter_erase_of_not hmem) ⟨rfl, rfl, rfl⟩

end Hash

end MuseKv
