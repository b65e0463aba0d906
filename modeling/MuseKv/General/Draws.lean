import Mathlib.Data.Finset.Basic
import Mathlib.Data.Finset.Dedup
import Mathlib.Tactic.Linarith

/-!
# Sets that elements are drawn from

Elements are added to a finite set, removed from it by name, and drawn from it, where the set chooses which
one.  Between two draws of the same element it was added again: an element is drawn at most as often as it
was put in (**`Run.draws_le`**).
-/

namespace MuseKv.General.Draws

variable {α : Type*}

/-- An operation on a set; elements are added together. -/
inductive Op (α : Type*)
  | add (xs : List α)
  | draw
  | remove (x : α)

/-- What an operation returns. -/
inductive Result (α : Type*)
  | done
  | element (x : α)
  | missing
  | empty

/-- An operation adds an element. -/
def Op.Adds (o : Op α) (x : α) : Prop :=
  match o with
  | add xs => x ∈ xs
  | _ => False

/-- The element that was drawn. -/
def Result.IsElement (r : Result α) (x : α) : Prop := r = element x

variable [DecidableEq α]

instance (o : Op α) (x : α) : Decidable (o.Adds x) := by
  cases o with
  | add xs => exact inferInstanceAs (Decidable (x ∈ xs))
  | draw => exact inferInstanceAs (Decidable False)
  | remove y => exact inferInstanceAs (Decidable False)

instance (r : Result α) (x : α) : Decidable (r.IsElement x) := by
  cases r with
  | element y => exact decidable_of_iff (y = x) (by simp [Result.IsElement])
  | done => exact isFalse (by simp [Result.IsElement])
  | missing => exact isFalse (by simp [Result.IsElement])
  | empty => exact isFalse (by simp [Result.IsElement])

/-- What an operation does to a set, and what it returns. -/
inductive Step : Finset α → Op α × Result α → Finset α → Prop
  | add (A : Finset α) (xs : List α) : Step A (.add xs, .done) (A ∪ xs.toFinset)
  | draw {A : Finset α} {x : α} (h : x ∈ A) : Step A (.draw, .element x) (A.erase x)
  | remove {A : Finset α} {x : α} (h : x ∈ A) : Step A (.remove x, .done) (A.erase x)
  | missing {A : Finset α} {x : α} (hne : A.Nonempty) (h : x ∉ A) : Step A (.remove x, .missing) A
  | drawEmpty : Step ∅ (.draw, .empty) ∅
  | removeEmpty (x : α) : Step ∅ (.remove x, .empty) ∅

/-- Operations one after another, with what they return. -/
inductive Run : Finset α → List (Op α × Result α) → Finset α → Prop
  | nil (A : Finset α) : Run A [] A
  | cons {A A₁ A' : Finset α} {e : Op α × Result α} {es : List (Op α × Result α)} (h : Step A e A₁)
      (hrun : Run A₁ es A') : Run A (e :: es) A'

/-- The times that an element is drawn. -/
def draws (x : α) (es : List (Op α × Result α)) : ℕ := es.countP fun e => e.2.IsElement x

/-- The times that an element is added. -/
def adds (x : α) (es : List (Op α × Result α)) : ℕ := es.countP fun e => e.1.Adds x

/-- One operation: an element that is drawn is gone, and only an addition brings it back. -/
theorem Step.draws_le {A A' : Finset α} {e : Op α × Result α} (h : Step A e A') (x : α) :
    (if e.2.IsElement x then 1 else 0) + (if x ∈ A' then 1 else 0) ≤
      (if x ∈ A then 1 else 0) + if e.1.Adds x then 1 else 0 := by
  cases h with
  | add A xs =>
    simp only [Result.IsElement, Op.Adds, Finset.mem_union, List.mem_toFinset, reduceCtorEq, if_false]
    by_cases hA : x ∈ A <;> by_cases hxs : x ∈ xs <;> simp [hA, hxs]
  | @draw A y hy =>
    simp only [Result.IsElement, Op.Adds, Result.element.injEq, Finset.mem_erase]
    by_cases hyx : y = x
    · subst hyx
      simp [hy]
    · simp [hyx, Ne.symm hyx]
  | @remove A y hy =>
    simp only [Result.IsElement, Op.Adds, Finset.mem_erase, reduceCtorEq, if_false]
    by_cases hA : x ∈ A
    · by_cases hxy : x = y <;> simp [hA, hxy]
    · simp [hA]
  | missing => simp [Result.IsElement, Op.Adds]
  | drawEmpty => simp [Result.IsElement, Op.Adds]
  | removeEmpty => simp [Result.IsElement, Op.Adds]

/-- **No element is drawn more often than it was put in.** -/
theorem Run.draws_le {A A' : Finset α} {es : List (Op α × Result α)} (h : Run A es A') (x : α) :
    draws x es + (if x ∈ A' then 1 else 0) ≤ (if x ∈ A then 1 else 0) + adds x es := by
  induction h with
  | nil A => simp [draws, adds]
  | @cons A A₁ A' e es hstep _ ih =>
    have hone := hstep.draws_le x
    unfold draws adds at ih ⊢
    rw [List.countP_cons, List.countP_cons]
    simp only [decide_eq_true_eq]
    omega

end MuseKv.General.Draws
