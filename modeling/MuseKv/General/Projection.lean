import MuseKv.General.Journal
import Mathlib.Tactic.SplitIfs

/-!
# A run, one key at a time

A run of operations on a store is, for each key, the run of the operations of that key on its value
(**`Keyed.run_eq_some_iff`**).  So the order of operations of different keys makes no difference
(`Keyed.run_congr`), and what becomes of a key can be told from its own operations (`Keyed.run_filter`).
-/

namespace MuseKv.General.Keyed

variable {Key Val Op : Type*} {K : Keyed Key Val Op}

/-- Operations one after another on one value. -/
def fold (K : Keyed Key Val Op) : List Op → Val → Option Val
  | [], v => some v
  | o :: os, v => (K.step o v).bind (fold K os)

variable [DecidableEq Key] {os os' : List Op} {σ σ' : Key → Val}

/-- The operations of a key. -/
def on (K : Keyed Key Val Op) (k : Key) (os : List Op) : List Op := os.filter fun o => K.key o = k

theorem on_cons (k : Key) (o : Op) (os : List Op) :
    K.on k (o :: os) = if K.key o = k then o :: K.on k os else K.on k os := by
  unfold on
  simp only [List.filter_cons, decide_eq_true_eq]

/-- **A run is a run for each key.** -/
theorem run_eq_some_iff : K.run os σ = some σ' ↔ ∀ k, K.fold (K.on k os) (σ k) = some (σ' k) := by
  induction os generalizing σ with
  | nil =>
    constructor
    · intro h k
      rw [Option.some.inj h]
      rfl
    · intro h
      exact congrArg some (funext fun k => Option.some.inj (h k))
  | cons o os ih =>
    cases hv : K.step o (σ (K.key o)) with
    | none =>
      have hrun : K.run (o :: os) σ = none := by rw [run, apply, hv, Option.map_none, Option.bind_none]
      have hfold : K.fold (K.on (K.key o) (o :: os)) (σ (K.key o)) = none := by
        rw [on_cons, if_pos rfl, fold, hv, Option.bind_none]
      rw [hrun]
      exact iff_of_false (by simp) fun h => absurd (hfold.symm.trans (h (K.key o))) (by simp)
    | some v =>
      have hrun : K.run (o :: os) σ = K.run os (Function.update σ (K.key o) v) := by
        rw [run, apply, hv, Option.map_some, Option.bind_some]
      rw [hrun, ih]
      refine forall_congr' fun k => ?_
      rw [on_cons]
      split_ifs with hk
      · subst hk
        rw [Function.update_self, fold, hv, Option.bind_some]
      · rw [Function.update_of_ne (Ne.symm hk)]

/-- **The order of operations of different keys makes no difference.** -/
theorem run_congr (h : ∀ k, K.on k os = K.on k os') : K.run os σ = K.run os' σ := by
  refine Option.ext fun σ' => ?_
  change K.run os σ = some σ' ↔ K.run os' σ = some σ'
  rw [run_eq_some_iff, run_eq_some_iff]
  simp only [h]

theorem on_on (k k' : Key) : K.on k' (K.on k os) = if k' = k then K.on k os else [] := by
  unfold on
  rw [List.filter_filter]
  split_ifs with hk
  · subst hk
    simp
  · refine List.filter_eq_nil_iff.mpr fun o _ => ?_
    rw [Bool.and_eq_true, decide_eq_true_eq, decide_eq_true_eq]
    rintro ⟨rfl, rfl⟩
    exact hk rfl

/-- **The operations of one key alone** make of its value what the whole run does. -/
theorem run_filter (h : K.run os σ = some σ') (k : Key) :
    K.run (K.on k os) σ = some (Function.update σ k (σ' k)) := by
  refine run_eq_some_iff.mpr fun k' => ?_
  rw [on_on]
  split_ifs with hk
  · rw [hk, Function.update_self]
    exact run_eq_some_iff.mp h k
  · rw [Function.update_of_ne hk]
    rfl

end MuseKv.General.Keyed
