import MuseKv.General.Buckets

/-!
# Related bucket tables

Two tables are `Related` by a relation between entries when they have equally long buckets with
related entries at the same places.  For a relation between entries of equal keys, related tables
answer a search with related results, and performing one operation on both keeps them related.
-/

namespace MuseKv.General.Buckets

variable {ι κ α : Type*} {slot : κ → ι} {key : α → κ} {R : α → α → Prop} {b b' : ι → List α}

/-- Related entries at the same places of every bucket. -/
def Related (R : α → α → Prop) (b b' : ι → List α) : Prop := ∀ i, List.Forall₂ R (b i) (b' i)

theorem map_key_eq (hR : ∀ a a', R a a' → key a = key a') {l l' : List α}
    (h : List.Forall₂ R l l') : l.map key = l'.map key := by
  induction h with
  | nil => rfl
  | cons ha _ ih => rw [List.map_cons, List.map_cons, hR _ _ ha, ih]

variable [DecidableEq κ]

theorem Related.find (hR : ∀ a a', R a a' → key a = key a') (h : Related R b b') (k : κ) :
    Option.Rel R (find slot key b k) (find slot key b' k) := by
  rw [Buckets.find, Buckets.find]
  have hl := h (slot k)
  generalize b (slot k) = l, b' (slot k) = l' at hl
  induction hl with
  | nil => exact .none
  | @cons a a' l l' ha _ ih =>
    rw [List.find?_cons, List.find?_cons, ← hR a a' ha]
    by_cases hk : key a = k
    · simp only [hk, decide_true]
      exact .some ha
    · simp only [hk, decide_false]
      exact ih

variable [DecidableEq ι]

theorem Related.update (h : Related R b b') (i : ι) {l l' : List α} (hl : List.Forall₂ R l l') :
    Related R (Function.update b i l) (Function.update b' i l') := by
  intro j
  rcases eq_or_ne j i with rfl | hj
  · rw [Function.update_self, Function.update_self]
    exact hl
  · rw [Function.update_of_ne hj, Function.update_of_ne hj]
    exact h j

omit [DecidableEq κ] in
theorem Related.push (hR : ∀ a a', R a a' → key a = key a') (h : Related R b b') {a a' : α}
    (ha : R a a') : Related R (push slot key b a) (push slot key b' a') := by
  rw [Buckets.push, Buckets.push, ← hR a a' ha]
  exact h.update _ (.cons ha (h _))

theorem Related.erase (hR : ∀ a a', R a a' → key a = key a') (h : Related R b b') (k : κ) :
    Related R (erase slot key b k) (erase slot key b' k) := by
  refine h.update _ ?_
  have hl := h (slot k)
  generalize b (slot k) = l, b' (slot k) = l' at hl
  induction hl with
  | nil => exact .nil
  | @cons a a' l l' ha hl ih =>
    by_cases hk : key a = k
    · rw [List.eraseP_cons_of_pos (by simpa using hk),
        List.eraseP_cons_of_pos (by simpa using hR a a' ha ▸ hk)]
      exact hl
    · rw [List.eraseP_cons_of_neg (by simpa using hk),
        List.eraseP_cons_of_neg (by simpa using hR a a' ha ▸ hk)]
      exact .cons ha ih

theorem Related.alter (hR : ∀ a a', R a a' → key a = key a') (h : Related R b b') {k : κ}
    {f f' : α → α} (hf : ∀ a ∈ b (slot k), ∀ a', key a = k → R a a' → R (f a) (f' a')) :
    Related R (alter slot key b k f) (alter slot key b' k f') := by
  refine h.update _ ?_
  have hl := h (slot k)
  generalize b (slot k) = l, b' (slot k) = l' at hl hf
  induction hl with
  | nil => exact .nil
  | @cons a a' l l' ha hl ih =>
    rw [List.map_cons, List.map_cons, ← hR a a' ha]
    refine .cons ?_ (ih fun c hc => hf c (List.mem_cons_of_mem _ hc))
    split_ifs with hk
    · exact hf a (List.mem_cons_self ..) a' hk ha
    · exact ha

end MuseKv.General.Buckets
