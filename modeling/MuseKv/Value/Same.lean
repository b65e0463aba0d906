import MuseKv.Hash.Basic

/-!
# Equal contents

What it means for two values, two entries and two tables to hold the same: a set by its members, a
field/value map by its lookups, a table by its keys and what it holds under each.  The order of a
chain, and lifetimes, do not count.
-/

namespace MuseKv

/-- Two values of one type with one content. -/
def Value.Same : Value → Value → Prop
  | .string s, .string s' => s = s'
  | .list l, .list l' => l = l'
  | .set s, .set s' => ∀ x, x ∈ s ↔ x ∈ s'
  | .hashmap m, .hashmap m' => ∀ f, m.lookup f = m'.lookup f
  | .unset, .unset => True
  | _, _ => False

/-- Two entries of one content and one pair of levels. -/
structure Kv.Same (n n' : Kv) : Prop where
  v : n.v.Same n'.v
  authr : n.authr = n'.authr
  authw : n.authw = n'.authw

/-- Two tables with the same keys, and the same under each key. -/
def Hash.Same (h h' : Hash) : Prop := ∀ k, Option.Rel Kv.Same (h.findNode k) (h'.findNode k)

@[refl]
theorem Value.Same.refl (v : Value) : v.Same v := by
  cases v with
  | string s => rfl
  | list l => rfl
  | set s => exact fun _ => Iff.rfl
  | hashmap m => exact fun _ => rfl
  | unset => trivial

theorem Value.Same.dataDtype {v v' : Value} (h : v.Same v') : v.dataDtype = v'.dataDtype := by
  cases v <;> cases v' <;> first | rfl | exact h.elim

@[refl]
theorem Kv.Same.refl (n : Kv) : n.Same n := ⟨Value.Same.refl _, rfl, rfl⟩

@[refl]
theorem Hash.Same.refl (h : Hash) : h.Same h := fun k => by
  cases h.findNode k with
  | none => exact .none
  | some n => exact .some (Kv.Same.refl n)

end MuseKv
