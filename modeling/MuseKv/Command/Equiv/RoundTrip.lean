import MuseKv.Hash.Equiv.Snapshot
import MuseKv.Command.Basic

/-!
# The snapshot round trip

`roundTrips_iff`: with a password that matches the exponent of the snapshot, a table survives `save`
and `read` exactly when every entry is one that a record can carry.  The text `a,b` under a key is
not (`not_roundTrips_comma`), and neither is a record of `2^31` bytes.
-/

namespace MuseKv

open Kvstore Hash

namespace World

/-- **The tables that survive `save` and `read`**: the file can be written, the password is positive
unless there is nothing to read, and every entry can be carried by a record. -/
theorem roundTrips_iff {w : World} {pw : Str} {d : Int} (hpw : readInt pw = some (true, d))
    (hd : 28969 * d % (1020 * 1452) = 1) :
    w.RoundTrips pw ↔ w.writable = true ∧ (0 < d ∨ w.h.entries = []) ∧
      ∀ e ∈ w.h.entries, Storable e := by
  have hopens : 0 < d → Opens d := fun hpos c => Encrypt.decrypt_encrypt_modulus hpos hd c
  constructor
  · intro h
    exact ⟨(roundTrips_iff_exists.mp h).1, storable_of_roundTrips hpw hopens h⟩
  · rintro ⟨hw, hpos, hall⟩
    exact roundTrips_of_storable hw hpw (hpos.imp_left hopens) hall

theorem entries_set_new (port : Int) (k : Str) (v : Value) (r w : UInt8) {e : Str × Kv}
    (he : (k, { v := v, authr := r, authw := w }) = e) :
    e ∈ ((Hash.new port).set k v r w).entries := by
  rw [← he, ← findNode_eq_some_iff, findNode_set, if_pos rfl]
  rfl

/-- A string and a list come back. -/
theorem roundTrips_stored : ∃ replies w, Command.runAll [⟨lit "make k v", 0, 0⟩, ⟨lit "lmake l b a", 0, 0⟩]
    (fresh 8000) = some (replies, w) ∧ w.h.entries ≠ [] ∧ w.RoundTrips (lit "409") := by
  obtain ⟨replies, w, hrun, hw, htable⟩ : ∃ replies w,
      Command.runAll [⟨lit "make k v", 0, 0⟩, ⟨lit "lmake l b a", 0, 0⟩] (fresh 8000) = some (replies, w) ∧
        w.writable = true ∧ w.h = ((Hash.new 8000).set (lit "k") (.string (lit "v")) 0 0).set (lit "l")
          (.list [lit "b", lit "a"]) 0 0 :=
    ⟨_, _, rfl, rfl, rfl⟩
  have hentry : ∀ e ∈ w.h.entries,
      e = (lit "l", ({ v := .list [lit "b", lit "a"], authr := 0, authw := 0 } : Kv)) ∨
        e = (lit "k", ({ v := .string (lit "v"), authr := 0, authw := 0 } : Kv)) := by
    intro e he
    have hnode := findNode_eq_some_iff.mpr he
    rw [htable, findNode_set] at hnode
    split_ifs at hnode with hl
    · exact Or.inl (Prod.ext hl (Option.some.inj hnode).symm)
    · rw [findNode_set] at hnode
      split_ifs at hnode with hk
      · exact Or.inr (Prod.ext hk (Option.some.inj hnode).symm)
      · exact absurd hnode (by simp)
  have hmem : (lit "k", ({ v := .string (lit "v"), authr := 0, authw := 0 } : Kv)) ∈ w.h.entries := by
    rw [← findNode_eq_some_iff, htable]
    rfl
  refine ⟨replies, w, hrun, List.ne_nil_of_mem hmem,
    (roundTrips_iff (d := 409) (by decide) (by decide)).mpr ⟨hw, Or.inl (by norm_num), fun e he => ?_⟩⟩
  rcases hentry e he with rfl | rfl
  · have hclean : ∀ x ∈ [lit "b", lit "a"], Clean x :=
      List.forall_mem_cons.mpr ⟨⟨by decide, by decide⟩, List.forall_mem_singleton.mpr ⟨by decide, by decide⟩⟩
    exact ⟨⟨by decide, by decide⟩, ⟨by decide, by decide, hclean⟩, splittable_recordLine (by decide)⟩
  · exact ⟨⟨by decide, by decide⟩, ⟨by decide, by decide⟩, splittable_recordLine (by decide)⟩

/-- **A value with a comma is lost.**  Storing the string `a,b`, saving and reading with the password
`409` does not give the table back. -/
theorem not_roundTrips_comma : ¬ ∀ (rs : List Command.Request) (replies : List Str) (w : World)
    (pw : Str) (d : Int),
    (∀ r ∈ rs, (words r.com).head? ≠ some (lit "expire")) →
    Command.runAll rs (fresh 8000) = some (replies, w) →
    readInt pw = some (true, d) → 28969 * d % (1020 * 1452) = 1 → w.RoundTrips pw := by
  intro h
  have hrun : Command.runAll [⟨lit "make k a,b", 0, 0⟩] (fresh 8000) = some ([Command.confirmMsg],
      { fresh 8000 with h := (Hash.new 8000).set (lit "k") (.string (lit "a,b")) 0 0 }) := rfl
  have hrt := h [⟨lit "make k a,b", 0, 0⟩] _ _ (lit "409") 409 (by simp; decide) hrun (by decide)
    (by decide)
  have hmem := entries_set_new 8000 (lit "k") (.string (lit "a,b")) 0 0 rfl
  have hopens : (0 : Int) < 409 → Opens 409 := fun hpos c =>
    Encrypt.decrypt_encrypt_modulus hpos (by decide) c
  have hstorable := (storable_of_roundTrips (by decide) hopens hrt).2 _ hmem
  exact hstorable.2.1.1 (by decide)

end World

end MuseKv
