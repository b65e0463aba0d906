import Mathlib.Logic.Function.Basic

/-!
# A journal that is written behind a store

Operations are performed one after another on a store, each on the value of its key, and entered in a
journal later.  If an operation is entered only when no earlier one of its key is still waiting, the
journal with the waiting operations behind it rebuilds the store (`Faithful`), because operations of
different keys can change places (`Keyed.run_move`).
-/

namespace MuseKv.General

variable {Key Val Op : Type*}

/-- Operations on a store: the key of each, and what it makes of the value there, unless it fails. -/
structure Keyed (Key Val Op : Type*) where
  key : Op → Key
  step : Op → Val → Option Val

namespace Keyed

variable [DecidableEq Key] (K : Keyed Key Val Op)

/-- One operation on a store. -/
def apply (o : Op) (σ : Key → Val) : Option (Key → Val) :=
  (K.step o (σ (K.key o))).map (Function.update σ (K.key o))

/-- Operations one after another. -/
def run : List Op → (Key → Val) → Option (Key → Val)
  | [], σ => some σ
  | o :: os, σ => (K.apply o σ).bind (run os)

variable {K} {o o' : Op} {σ : Key → Val}

theorem run_append (os os' : List Op) (σ : Key → Val) :
    K.run (os ++ os') σ = (K.run os σ).bind (K.run os') := by
  induction os generalizing σ with
  | nil => rfl
  | cons o os ih =>
    rw [List.cons_append, run, run, Option.bind_assoc]
    exact Option.bind_congr fun σ' _ => ih σ'

/-- Operations of different keys can change places. -/
theorem apply_comm (h : K.key o ≠ K.key o') :
    (K.apply o σ).bind (K.apply o') = (K.apply o' σ).bind (K.apply o) := by
  unfold apply
  cases hv : K.step o (σ (K.key o)) with
  | none =>
    cases K.step o' (σ (K.key o')) with
    | none => rfl
    | some v' =>
      rw [Option.map_none, Option.bind_none, Option.map_some, Option.bind_some,
        Function.update_of_ne h, hv, Option.map_none]
  | some v =>
    rw [Option.map_some, Option.bind_some, Function.update_of_ne h.symm]
    cases K.step o' (σ (K.key o')) with
    | none => rfl
    | some v' =>
      rw [Option.map_some, Option.map_some, Option.bind_some, Function.update_of_ne h, hv,
        Option.map_some, Function.update_comm h]

/-- **An operation can be moved to the front** of operations of other keys. -/
theorem run_move {pre post : List Op} (h : ∀ o' ∈ pre, K.key o' ≠ K.key o) :
    K.run (pre ++ o :: post) σ = K.run (o :: (pre ++ post)) σ := by
  induction pre generalizing σ with
  | nil => rfl
  | cons o' pre ih =>
    obtain ⟨ho, hpre⟩ := List.forall_mem_cons.mp h
    calc K.run (o' :: (pre ++ o :: post)) σ
        = (K.apply o' σ).bind (K.run (o :: (pre ++ post))) :=
          Option.bind_congr fun σ' _ => ih hpre
      _ = ((K.apply o' σ).bind (K.apply o)).bind (K.run (pre ++ post)) := by
          rw [Option.bind_assoc]
          rfl
      _ = ((K.apply o σ).bind (K.apply o')).bind (K.run (pre ++ post)) := by rw [apply_comm ho]
      _ = K.run (o :: o' :: (pre ++ post)) σ := by
          rw [Option.bind_assoc]
          rfl

end Keyed

/-- A store, the journal, and the operations that are not in it yet, in the order in which they were
performed. -/
structure Journal (Key Val Op : Type*) where
  store : Key → Val
  written : List Op
  waiting : List Op

namespace Journal

variable [DecidableEq Key] {K : Keyed Key Val Op} {σ₀ : Key → Val} {j j' : Journal Key Val Op} {o : Op}

/-- An operation is performed. -/
structure Perform (K : Keyed Key Val Op) (j j' : Journal Key Val Op) (o : Op) : Prop where
  store : K.apply o j.store = some j'.store
  written : j'.written = j.written
  waiting : j'.waiting = j.waiting ++ [o]

/-- An operation is entered in the journal, ahead of none of its key. -/
structure Enter (K : Keyed Key Val Op) (j j' : Journal Key Val Op) (o : Op) : Prop where
  store : j'.store = j.store
  written : j'.written = j.written ++ [o]
  waiting : ∃ pre post, j.waiting = pre ++ o :: post ∧ j'.waiting = pre ++ post ∧
    ∀ o' ∈ pre, K.key o' ≠ K.key o

/-- The journal, with the waiting operations behind it, rebuilds the store. -/
def Faithful (K : Keyed Key Val Op) (σ₀ : Key → Val) (j : Journal Key Val Op) : Prop :=
  K.run (j.written ++ j.waiting) σ₀ = some j.store

theorem Faithful.perform (h : Faithful K σ₀ j) (hp : Perform K j j' o) : Faithful K σ₀ j' := by
  rw [Faithful, hp.written, hp.waiting, ← List.append_assoc, Keyed.run_append, h, Option.bind_some,
    Keyed.run, hp.store, Option.bind_some, Keyed.run]

theorem Faithful.enter (h : Faithful K σ₀ j) (he : Enter K j j' o) : Faithful K σ₀ j' := by
  obtain ⟨pre, post, hwaiting, hwaiting', hkeys⟩ := he.waiting
  rw [Faithful, hwaiting, Keyed.run_append] at h
  rw [Faithful, he.store, he.written, hwaiting', List.append_assoc, Keyed.run_append, ← h]
  exact Option.bind_congr fun σ _ => (Keyed.run_move hkeys).symm

/-- **When nothing is waiting, the journal rebuilds the store.** -/
theorem Faithful.rebuilds (h : Faithful K σ₀ j) (hdone : j.waiting = []) :
    K.run j.written σ₀ = some j.store := by
  rw [Faithful, hdone, List.append_nil] at h
  exact h

end Journal

end MuseKv.General
