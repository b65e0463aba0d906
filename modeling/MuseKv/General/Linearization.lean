import Mathlib.Data.List.FinRange
import Mathlib.Data.List.Perm.Basic
import Mathlib.Logic.Function.Basic

/-!
# Sequential orders of concurrent operations

Operations that run concurrently take effect one at a time.  `Linearized` says of the operations that
are complete that they could have been executed one after another: with the replies they gave, and
leaving the object in the state it is in.  Completing an operation by what `exec` does keeps this
(`Linearized.complete`), so to linearize a system it is enough to find for each step the operation it
completes, if it completes one.
-/

namespace MuseKv.General

variable {ι Op Reply S : Type*}

/-- Operations one after another: their replies, and the state they leave, unless one fails. -/
def serial (exec : Op → S → Option (Reply × S)) : List Op → S → Option (List Reply × S)
  | [], σ => some ([], σ)
  | o :: os, σ => (exec o σ).bind fun x => (serial exec os x.2).map fun y => (x.1 :: y.1, y.2)

variable {exec : Op → S → Option (Reply × S)}

theorem serial_concat {os : List Op} {o : Op} {σ σ₁ σ₂ : S} {rs : List Reply} {r : Reply}
    (h : serial exec os σ = some (rs, σ₁)) (ho : exec o σ₁ = some (r, σ₂)) :
    serial exec (os ++ [o]) σ = some (rs ++ [r], σ₂) := by
  induction os generalizing σ rs with
  | nil =>
    obtain ⟨rfl, rfl⟩ := Prod.mk.inj (Option.some.inj h)
    rw [List.nil_append, serial, ho]
    rfl
  | cons o' os ih =>
    obtain ⟨x, hx, h⟩ := Option.bind_eq_some_iff.mp h
    obtain ⟨y, hy, heq⟩ := Option.map_eq_some_iff.mp h
    obtain ⟨rfl, rfl⟩ := Prod.mk.inj heq
    rw [List.cons_append, serial, hx, Option.bind_some, ih hy]
    rfl

/-- The operations that are complete, each with its reply, could have been executed one after another,
from a state to another one. -/
def Linearized (exec : Op → S → Option (Reply × S)) (op : ι → Op) (σ₀ : S)
    (replies : ι → Option Reply) (σ : S) : Prop :=
  ∃ order : List ι, order.Nodup ∧ (∀ i, i ∈ order ↔ (replies i).isSome = true) ∧
    ∃ rs, serial exec (order.map op) σ₀ = some (rs, σ) ∧ order.map replies = rs.map some

/-- The operations that are complete, executed one after another in a given order. -/
structure LinearizedBy (exec : Op → S → Option (Reply × S)) (op : ι → Op) (σ₀ : S)
    (replies : ι → Option Reply) (σ : S) (order : List ι) : Prop where
  nodup : order.Nodup
  mem_iff : ∀ i, i ∈ order ↔ (replies i).isSome = true
  serial : ∃ rs, serial exec (order.map op) σ₀ = some (rs, σ) ∧ order.map replies = rs.map some

namespace LinearizedBy

variable {op : ι → Op} {σ₀ σ σ' : S} {replies : ι → Option Reply} {order : List ι}

theorem start (hnew : ∀ i, replies i = none) : LinearizedBy exec op σ₀ replies σ₀ [] :=
  ⟨List.nodup_nil, fun i => by simp [hnew i], [], rfl, rfl⟩

/-- **An operation is completed**, and comes last in the order. -/
theorem complete [DecidableEq ι] (h : LinearizedBy exec op σ₀ replies σ order) {i : ι} {r : Reply}
    (hi : replies i = none) (hexec : exec (op i) σ = some (r, σ')) :
    LinearizedBy exec op σ₀ (Function.update replies i (some r)) σ' (order ++ [i]) := by
  have hnew : i ∉ order := fun hin => by
    rw [h.mem_iff i, hi] at hin
    exact absurd hin (by simp)
  have hne : ∀ j ∈ order, j ≠ i := fun j hj heq => hnew (heq ▸ hj)
  obtain ⟨rs, hserial, hreplies⟩ := h.serial
  refine ⟨?_, fun j => ?_, rs ++ [r], ?_, ?_⟩
  · rw [← List.concat_eq_append]
    exact h.nodup.concat hnew
  · rw [List.mem_append, List.mem_singleton, h.mem_iff j]
    by_cases hj : j = i
    · rw [hj, Function.update_self]
      simp
    · rw [Function.update_of_ne hj, or_iff_left hj]
  · rw [List.map_append, List.map_singleton]
    exact serial_concat hserial hexec
  · rw [List.map_append, List.map_append, List.map_singleton, List.map_singleton,
      Function.update_self, ← hreplies]
    exact congrArg (· ++ [some r])
      (List.map_congr_left fun j hj => Function.update_of_ne (hne j hj) _ _)

end LinearizedBy

namespace Linearized

variable {op : ι → Op} {σ₀ σ σ' : S} {replies : ι → Option Reply}

theorem start : Linearized exec op σ₀ (fun _ => none) σ₀ :=
  ⟨[], List.nodup_nil, by simp, [], rfl, rfl⟩

/-- **An operation is completed.** -/
theorem complete [DecidableEq ι] (h : Linearized exec op σ₀ replies σ) {i : ι} {r : Reply}
    (hi : replies i = none) (hexec : exec (op i) σ = some (r, σ')) :
    Linearized exec op σ₀ (Function.update replies i (some r)) σ' := by
  obtain ⟨order, hnodup, hmem, hserial⟩ := h
  have hlin := LinearizedBy.complete ⟨hnodup, hmem, hserial⟩ hi hexec
  exact ⟨order ++ [i], hlin.nodup, hlin.mem_iff, hlin.serial⟩

/-- **When all are complete**, they are executed in one of the orders of all. -/
theorem all {n : ℕ} {op : Fin n → Op} {replies : Fin n → Option Reply}
    (h : Linearized exec op σ₀ replies σ) (hall : ∀ i, (replies i).isSome = true) :
    ∃ order : List (Fin n), order.Perm (List.finRange n) ∧
      ∃ rs, serial exec (order.map op) σ₀ = some (rs, σ) ∧ order.map replies = rs.map some := by
  obtain ⟨order, hnodup, hmem, rs, hserial, hreplies⟩ := h
  refine ⟨order, ?_, rs, hserial, hreplies⟩
  rw [List.perm_ext_iff_of_nodup hnodup (List.nodup_finRange n)]
  exact fun i => iff_of_true ((hmem i).mpr (hall i)) (List.mem_finRange i)

end Linearized

end MuseKv.General
