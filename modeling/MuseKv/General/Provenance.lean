import Mathlib.Algebra.Order.BigOperators.Group.List

/-!
# What the jobs of a request may cost

Jobs that give way to other jobs, each with the request it stems from, if it stems from one.  A cost of
a job that covers what the job spends and the costs of the jobs it gives way to is a budget for the
request: whatever the order of the jobs, no request spends more than the jobs that it started with
cost (`WithinBudget.issue`, `WithinBudget.move`).
-/

namespace MuseKv.General

variable {T I M : Type} [DecidableEq I] [AddCommMonoid M] {cost : T → M} {i : I}

/-- What the jobs of a request may still spend. -/
def outstanding (cost : T → M) (i : I) (jobs : List (T × Option I)) : M :=
  (jobs.map fun job => if job.2 = some i then cost job.1 else 0).sum

theorem outstanding_append (jobs jobs' : List (T × Option I)) :
    outstanding cost i (jobs ++ jobs') = outstanding cost i jobs + outstanding cost i jobs' := by
  rw [outstanding, List.map_append, List.sum_append]
  rfl

/-- Jobs that stem from one request. -/
theorem outstanding_map (new : List T) (origin : Option I) :
    outstanding cost i (new.map fun task => (task, origin)) =
      if origin = some i then (new.map cost).sum else 0 := by
  rw [outstanding, List.map_map]
  by_cases horigin : origin = some i
  · rw [if_pos horigin]
    congr 1
    exact List.map_congr_left fun task _ => if_pos horigin
  · rw [if_neg horigin]
    refine List.sum_eq_zero fun m hm => ?_
    obtain ⟨task, -, rfl⟩ := List.mem_map.mp hm
    exact if_neg horigin

/-- One job, and the others. -/
theorem outstanding_getElem {jobs : List (T × Option I)} {index : ℕ} {job : T × Option I}
    (h : jobs[index]? = some job) :
    outstanding cost i jobs =
      (if job.2 = some i then cost job.1 else 0) + outstanding cost i (jobs.eraseIdx index) := by
  obtain ⟨hlt, rfl⟩ := List.getElem?_eq_some_iff.mp h
  have hperm := (List.getElem_cons_eraseIdx_perm hlt).symm
  rw [outstanding, (hperm.map _).sum_eq, List.map_cons, List.sum_cons]
  rfl

section Budget

variable [PartialOrder M] [IsOrderedAddMonoid M] {budget spent : I → M} {jobs : List (T × Option I)}

/-- No request spends more than its budget, whatever its jobs still spend. -/
def WithinBudget (cost : T → M) (budget spent : I → M) (jobs : List (T × Option I)) : Prop :=
  ∀ i, spent i + outstanding cost i jobs ≤ budget i

/-- **A request is issued** with a budget for what it spends at once and for its jobs. -/
theorem WithinBudget.issue (h : WithinBudget cost budget spent jobs) {k : I} {amount paid : M}
    {new : List T} (hnew : paid + (new.map cost).sum ≤ amount) :
    WithinBudget cost (fun i => budget i + if some k = some i then amount else 0)
      (fun i => spent i + if some k = some i then paid else 0)
      (jobs ++ new.map fun task => (task, some k)) := by
  intro i
  rw [outstanding_append, outstanding_map, add_add_add_comm]
  refine add_le_add (h i) ?_
  by_cases hk : some k = some i
  · rwa [if_pos hk, if_pos hk, if_pos hk]
  · rw [if_neg hk, if_neg hk, if_neg hk, add_zero]

/-- **A job moves on**: it spends something and gives way to other jobs, within its cost. -/
theorem WithinBudget.move (h : WithinBudget cost budget spent jobs) {index : ℕ} {task : T}
    {origin : Option I} (hjob : jobs[index]? = some (task, origin)) {paid : M} {new : List T}
    (hnew : paid + (new.map cost).sum ≤ cost task) :
    WithinBudget cost budget (fun i => spent i + if origin = some i then paid else 0)
      (jobs.eraseIdx index ++ new.map fun task => (task, origin)) := by
  intro i
  have hbudget := h i
  rw [outstanding_getElem hjob] at hbudget
  refine le_trans ?_ hbudget
  rw [outstanding_append, outstanding_map, add_assoc]
  refine add_le_add_right ?_ _
  rw [add_left_comm, add_comm]
  refine add_le_add_left ?_ _
  by_cases horigin : origin = some i
  · rwa [if_pos horigin, if_pos horigin, if_pos horigin]
  · rw [if_neg horigin, if_neg horigin, if_neg horigin, add_zero]

/-- What was spent is within the budget, if no cost is negative. -/
theorem WithinBudget.spent_le (h : WithinBudget cost budget spent jobs) (hcost : ∀ task, 0 ≤ cost task) :
    spent i ≤ budget i := by
  refine le_trans (le_add_of_nonneg_right (List.sum_nonneg fun m hm => ?_)) (h i)
  obtain ⟨job, -, rfl⟩ := List.mem_map.mp hm
  split_ifs
  · exact hcost job.1
  · exact le_rfl

end Budget

end MuseKv.General
