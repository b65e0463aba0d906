import Mathlib.Data.List.Perm.Basic
import Mathlib.Data.List.ReduceOption

/-!
# Double-ended queues

Pushes and pops at the two ends of a sequence.  Nothing that is pushed is lost or taken twice: what was
popped and what is left is what was there and what was pushed (**`run_perm`**).  With pushes at one end
and pops at the other one, it comes out in the order in which it was put in (**`run_fifo`**).
-/

namespace MuseKv.General.Deque

variable {α : Type*}

/-- An operation on a double-ended queue; a push puts its elements in one after another. -/
inductive Op (α : Type*)
  | pushFront (xs : List α)
  | pushBack (xs : List α)
  | popFront
  | popBack

/-- What an operation takes out, and what it leaves. -/
def step : Op α → List α → Option α × List α
  | .pushFront xs, l => (none, xs.reverse ++ l)
  | .pushBack xs, l => (none, l ++ xs)
  | .popFront, l => (l.head?, l.tail)
  | .popBack, l => (l.getLast?, l.dropLast)

/-- Operations one after another: what each takes out, and what they leave. -/
def run : List (Op α) → List α → List (Option α) × List α
  | [], l => ([], l)
  | o :: os, l => ((step o l).1 :: (run os (step o l).2).1, (run os (step o l).2).2)

/-- The elements an operation puts in. -/
def Op.pushed : Op α → List α
  | pushFront xs => xs
  | pushBack xs => xs
  | popFront => []
  | popBack => []

/-- A push at the back or a pop at the front. -/
def Op.IsQueue : Op α → Prop
  | pushFront _ => False
  | pushBack _ => True
  | popFront => True
  | popBack => False

/-- The elements that are popped. -/
def popped (os : List (Op α)) (l : List α) : List α := (run os l).1.reduceOption

/-- What is left. -/
def rest (os : List (Op α)) (l : List α) : List α := (run os l).2

theorem popped_cons (o : Op α) (os : List (Op α)) (l : List α) :
    popped (o :: os) l = (step o l).1.toList ++ popped os (step o l).2 := by
  unfold popped
  rw [run]
  cases (step o l).1 with
  | none => rfl
  | some x => rfl

theorem rest_cons (o : Op α) (os : List (Op α)) (l : List α) :
    rest (o :: os) l = rest os (step o l).2 := rfl

/-- One operation loses nothing. -/
theorem step_perm (o : Op α) (l : List α) :
    ((step o l).1.toList ++ (step o l).2).Perm (l ++ o.pushed) := by
  cases o with
  | pushFront xs => exact ((List.reverse_perm xs).append_right l).trans List.perm_append_comm
  | pushBack xs => exact List.Perm.refl _
  | popFront =>
    cases l with
    | nil => exact List.Perm.refl _
    | cons x l => simp [step, Op.pushed]
  | popBack =>
    rcases List.eq_nil_or_concat l with rfl | ⟨l, x, rfl⟩
    · exact List.Perm.refl _
    · rw [step, Op.pushed, List.append_nil, List.concat_eq_append, List.getLast?_concat,
        List.dropLast_concat]
      exact List.perm_append_comm

/-- **Nothing is lost, and nothing is taken twice.** -/
theorem run_perm (os : List (Op α)) (l : List α) :
    (popped os l ++ rest os l).Perm (l ++ os.flatMap Op.pushed) := by
  induction os generalizing l with
  | nil => simp [popped, rest, run, List.reduceOption]
  | cons o os ih =>
    rw [popped_cons, rest_cons, List.append_assoc, List.flatMap_cons]
    refine ((ih _).append_left _).trans ?_
    rw [← List.append_assoc, ← List.append_assoc]
    exact (step_perm o l).append_right _

/-- **First in, first out.** -/
theorem run_fifo {os : List (Op α)} (h : ∀ o ∈ os, o.IsQueue) (l : List α) :
    popped os l ++ rest os l = l ++ os.flatMap Op.pushed := by
  induction os generalizing l with
  | nil => simp [popped, rest, run, List.reduceOption]
  | cons o os ih =>
    have hstep : (step o l).1.toList ++ (step o l).2 = l ++ o.pushed := by
      cases o with
      | pushFront => exact absurd (h _ (List.mem_cons_self ..)) id
      | pushBack => rfl
      | popFront =>
        cases l with
        | nil => rfl
        | cons x l => simp [step, Op.pushed]
      | popBack => exact absurd (h _ (List.mem_cons_self ..)) id
    rw [popped_cons, rest_cons, List.append_assoc, ih fun o ho => h o (List.mem_cons_of_mem _ ho),
      List.flatMap_cons, ← List.append_assoc, hstep, List.append_assoc]

end MuseKv.General.Deque
