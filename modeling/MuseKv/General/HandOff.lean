import Mathlib.Data.List.Nodup

/-!
# Handing a task on

Some helpers stand on a list.  Whoever has a task and is not able to do it hands it to the first helper
on the list who is not himself.  So the task never gets behind the second helper
(`mem_take_of_firstOther`).

* `exists_able_iff`: it reaches one who is able just when the one who has it first, or one of the first
  two on the list, is, and then after two steps at most.
* `exists_handedOn_iff`: otherwise, and only then, it is handed on without end, by the first two on the
  list (`HandedOn.alternates`).
-/

namespace MuseKv.General

variable {α : Type} [DecidableEq α]

/-- The first one on a list who is not `a`. -/
def firstOther (l : List α) (a : α) : Option α := l.find? fun b => b ≠ a

/-- Who has a task that was handed on some times, and that `a` had first. -/
inductive HandedOn (l : List α) (able : α → Prop) (a : α) : ℕ → α → Prop
  | start : HandedOn l able a 0 a
  | next {n : ℕ} {b c : α} (h : HandedOn l able a n b) (hb : ¬ able b)
      (hc : firstOther l b = some c) : HandedOn l able a (n + 1) c

variable {l : List α} {able : α → Prop} {a b c x y : α} {n : ℕ}

/-! ### The next one -/

theorem firstOther_singleton (h : x ≠ a) : firstOther [x] a = some x :=
  List.find?_cons_of_pos (decide_eq_true h)

/-- The second on the list gets what the first one hands on, and the first gets all the rest. -/
theorem firstOther_cons_cons (h : y ≠ x) :
    firstOther (x :: y :: l) a = some (if x = a then y else x) := by
  by_cases hx : x = a
  · subst hx
    rw [firstOther, List.find?_cons_of_neg (by simp), List.find?_cons_of_pos (by simpa using h),
      if_pos rfl]
  · rw [firstOther, List.find?_cons_of_pos (by simpa using hx), if_neg hx]

omit [DecidableEq α] in
theorem ne_of_nodup (h : (x :: y :: l).Nodup) : y ≠ x := fun heq =>
  (List.nodup_cons.mp h).1 (heq ▸ List.mem_cons_self ..)

/-- **No one hands a task to the third one** on the list. -/
theorem mem_take_of_firstOther (hnd : l.Nodup) (h : firstOther l a = some b) : b ∈ l.take 2 := by
  match l, hnd with
  | [], _ => exact absurd h (by simp [firstOther])
  | [x], _ => exact List.mem_of_find?_eq_some h
  | x :: y :: rest, hnd =>
    rw [firstOther_cons_cons (ne_of_nodup hnd)] at h
    obtain rfl := Option.some.inj h
    split_ifs
    · simp
    · simp

/-- With two on the list, there is always another one. -/
theorem exists_firstOther (hnd : l.Nodup) (h : 2 ≤ l.length) (a : α) :
    ∃ b, firstOther l a = some b := by
  match l, hnd, h with
  | x :: y :: rest, hnd, _ => exact ⟨_, firstOther_cons_cons (ne_of_nodup hnd)⟩

/-! ### The way of a task -/

theorem HandedOn.mem (hnd : l.Nodup) (h : HandedOn l able a n b) : b = a ∨ b ∈ l.take 2 := by
  cases h with
  | start => exact Or.inl rfl
  | next _ _ hc => exact Or.inr (mem_take_of_firstOther hnd hc)

/-- The second on the list gets a task that the first is not able to do. -/
theorem HandedOn.second (hnd : (x :: y :: l).Nodup) (ha : ¬ able a) (hx : ¬ able x) :
    ∃ n ≤ 2, HandedOn (x :: y :: l) able a n y := by
  have hxy := ne_of_nodup hnd
  by_cases hxa : x = a
  · subst hxa
    have hnext : firstOther (x :: y :: l) x = some y := by rw [firstOther_cons_cons hxy, if_pos rfl]
    exact ⟨1, by decide, .next .start ha hnext⟩
  · have hfirst : firstOther (x :: y :: l) a = some x := by rw [firstOther_cons_cons hxy, if_neg hxa]
    have hnext : firstOther (x :: y :: l) x = some y := by rw [firstOther_cons_cons hxy, if_pos rfl]
    exact ⟨2, Nat.le_refl 2, (HandedOn.start.next ha hfirst).next hx hnext⟩

/-- **One who is able gets the task** after two steps at most. -/
theorem exists_handedOn (hnd : l.Nodup) (h : able a ∨ ∃ b ∈ l.take 2, able b) :
    ∃ n b, n ≤ 2 ∧ HandedOn l able a n b ∧ able b := by
  by_cases ha : able a
  · exact ⟨0, a, Nat.zero_le 2, .start, ha⟩
  obtain ⟨b, hb, hable⟩ := h.resolve_left ha
  have hne : b ≠ a := fun heq => ha (heq ▸ hable)
  match l, hnd with
  | [], _ => exact absurd hb List.not_mem_nil
  | [x], _ =>
    obtain rfl : b = x := List.mem_singleton.mp hb
    exact ⟨1, b, by decide, .next .start ha (firstOther_singleton hne), hable⟩
  | x :: y :: rest, hnd =>
    by_cases hx : able x
    · have hxa : x ≠ a := fun heq => ha (heq ▸ hx)
      have hfirst : firstOther (x :: y :: rest) a = some x := by
        rw [firstOther_cons_cons (ne_of_nodup hnd), if_neg hxa]
      exact ⟨1, x, by decide, .next .start ha hfirst, hx⟩
    · obtain rfl : b = y := by
        rcases List.mem_pair.mp hb with rfl | hb
        · exact absurd hable hx
        · exact hb
      obtain ⟨n, hn, h⟩ := HandedOn.second hnd ha hx
      exact ⟨n, b, hn, h, hable⟩

/-- **A task gets to one who is able if and only if** the one who has it, or one of the first two on
the list, is. -/
theorem exists_able_iff (hnd : l.Nodup) :
    (∃ n b, HandedOn l able a n b ∧ able b) ↔ able a ∨ ∃ b ∈ l.take 2, able b := by
  constructor
  · rintro ⟨n, b, h, hable⟩
    rcases h.mem hnd with rfl | hb
    · exact Or.inl hable
    · exact Or.inr ⟨b, hb, hable⟩
  · intro h
    obtain ⟨n, b, -, h, hable⟩ := exists_handedOn hnd h
    exact ⟨n, b, h, hable⟩

/-- Where a task was before the last step. -/
theorem HandedOn.pred (h : HandedOn l able a (n + 1) c) :
    ∃ b, HandedOn l able a n b ∧ ¬ able b ∧ firstOther l b = some c := by
  cases h with
  | next h hb hc => exact ⟨_, h, hb, hc⟩

theorem HandedOn.unique (h : HandedOn l able a n b) (h' : HandedOn l able a n c) : b = c := by
  induction n generalizing b c with
  | zero =>
    cases h
    cases h'
    rfl
  | succ n ih =>
    obtain ⟨x, hx, -, hb⟩ := h.pred
    obtain ⟨y, hy, -, hc⟩ := h'.pred
    obtain rfl := ih hx hy
    exact Option.some.inj (hb.symm.trans hc)

/-- **The first two hand a task to each other** from the second step on. -/
theorem HandedOn.alternates (hnd : l.Nodup) (h : HandedOn l able a (n + 1) b)
    (h' : HandedOn l able a (n + 2) c) :
    ∃ x y, l.take 2 = [x, y] ∧ (b = x ∧ c = y ∨ b = y ∧ c = x) := by
  obtain ⟨d, hd, -, hc⟩ := h'.pred
  obtain rfl := h.unique hd
  obtain ⟨e, -, -, hb⟩ := h.pred
  have hbmem := mem_take_of_firstOther hnd hb
  have hcmem := mem_take_of_firstOther hnd hc
  have hne : c ≠ b := by simpa using List.find?_some hc
  match l with
  | [] => exact absurd hbmem List.not_mem_nil
  | [x] => exact absurd ((List.mem_singleton.mp hcmem).trans (List.mem_singleton.mp hbmem).symm) hne
  | x :: y :: l =>
    refine ⟨x, y, rfl, ?_⟩
    rcases List.mem_pair.mp hbmem with rfl | rfl
    · exact Or.inl ⟨rfl, (List.mem_pair.mp hcmem).resolve_left hne⟩
    · exact Or.inr ⟨rfl, (List.mem_pair.mp hcmem).resolve_right hne⟩

/-- One who is able keeps the task. -/
theorem HandedOn.not_able {m : ℕ} (h : HandedOn l able a n c) (h' : HandedOn l able a m b)
    (hlt : m < n) : ¬ able b := by
  induction n generalizing c with
  | zero => exact absurd hlt (Nat.not_lt_zero m)
  | succ n ih =>
    obtain ⟨x, hx, hun, -⟩ := h.pred
    rcases Nat.lt_succ_iff_lt_or_eq.mp hlt with hlt | rfl
    · exact ih hx hlt
    · exact h'.unique hx ▸ hun

/-- **A task that no one can do is handed on without end**, if there are two on the list. -/
theorem HandedOn.endless (hnd : l.Nodup) (hlen : 2 ≤ l.length)
    (hun : ¬ (able a ∨ ∃ b ∈ l.take 2, able b)) (n : ℕ) : ∃ b, HandedOn l able a n b := by
  induction n with
  | zero => exact ⟨a, .start⟩
  | succ n ih =>
    obtain ⟨b, h⟩ := ih
    obtain ⟨c, hc⟩ := exists_firstOther hnd hlen b
    exact ⟨c, h.next (fun hable => hun ((exists_able_iff hnd).mp ⟨n, b, h, hable⟩)) hc⟩

/-- **A task is handed on more than twice if and only if** there are two on the list, and neither they
nor the one who has it first is able. -/
theorem exists_handedOn_iff (hnd : l.Nodup) (hn : 2 < n) :
    (∃ b, HandedOn l able a n b) ↔
      2 ≤ l.length ∧ ¬ (able a ∨ ∃ b ∈ l.take 2, able b) := by
  refine ⟨fun ⟨b, h⟩ => ⟨?_, fun hable => ?_⟩, fun h => HandedOn.endless hnd h.1 h.2 n⟩
  · -- the last two who got it are not the same
    obtain ⟨m, rfl⟩ := Nat.exists_eq_add_of_le hn
    rw [Nat.add_comm] at h
    obtain ⟨c, hc, -, hb⟩ := h.pred
    obtain ⟨d, -, -, hcd⟩ := hc.pred
    have hmem := List.mem_of_find?_eq_some hb
    have hmem' := List.mem_of_find?_eq_some hcd
    have hne : b ≠ c := by simpa using List.find?_some hb
    match l with
    | [] => exact absurd hmem List.not_mem_nil
    | [x] => exact absurd ((List.mem_singleton.mp hmem).trans (List.mem_singleton.mp hmem').symm) hne
    | x :: y :: l => simp
  · obtain ⟨m, c, hm, h', hc⟩ := exists_handedOn hnd hable
    exact h.not_able h' (by omega) hc

end MuseKv.General
