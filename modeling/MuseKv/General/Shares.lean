import Mathlib.Data.Nat.Basic
import Mathlib.Order.Basic
import Mathlib.Tactic.Ring

/-!
# Equal shares with the remainder in the last

`t` points are cut into `n` shares of `t / n` points each, and the last share also takes what is left
over.  Every point lies in a share (`exists_share`) and in no other (`InShare.unique`), also when there
are more shares than points and all but the last are empty.
-/

namespace MuseKv.General

variable {t n k l x : ℕ}

/-- The first point of a share. -/
def shareStart (t n k : ℕ) : ℕ := t / n * k

/-- The point behind a share. -/
def shareStop (t n k : ℕ) : ℕ := if k + 1 = n then t else t / n * (k + 1)

/-- A point of a share. -/
def InShare (t n k x : ℕ) : Prop := shareStart t n k ≤ x ∧ x < shareStop t n k

theorem shareStart_le (hk : k < n) : shareStart t n k ≤ t :=
  (Nat.mul_le_mul_left _ hk.le).trans (Nat.div_mul_le_self t n)

theorem shareStop_le (hk : k < n) : shareStop t n k ≤ t := by
  unfold shareStop
  split_ifs
  · exact le_rfl
  · exact (Nat.mul_le_mul_left _ hk).trans (Nat.div_mul_le_self t n)

/-- A share ends where the next one begins, or before. -/
theorem shareStop_le_shareStart (hl : l < n) (h : k < l) : shareStop t n k ≤ shareStart t n l := by
  rw [shareStop, if_neg (by omega), shareStart]
  exact Nat.mul_le_mul_left _ h

/-- **No point lies in two shares.** -/
theorem InShare.unique (hk : k < n) (hl : l < n) (h : InShare t n k x) (h' : InShare t n l x) :
    k = l := by
  rcases lt_trichotomy k l with hlt | heq | hlt
  · exact absurd (h'.1.trans_lt h.2) (not_lt.mpr (shareStop_le_shareStart hl hlt))
  · exact heq
  · exact absurd (h.1.trans_lt h'.2) (not_lt.mpr (shareStop_le_shareStart hk hlt))

/-- **Every point lies in a share.** -/
theorem exists_share (hn : 0 < n) (hx : x < t) : ∃ k < n, InShare t n k x := by
  -- the share that is counted off, unless it is behind the last
  rcases Nat.lt_or_ge x (t / n * (n - 1)) with hlt | hge
  · have hpos : 0 < t / n := Nat.pos_of_ne_zero fun h => by simp [h] at hlt
    have hk : x / (t / n) < n - 1 := (Nat.div_lt_iff_lt_mul hpos).mpr (by rwa [mul_comm])
    refine ⟨x / (t / n), by omega, Nat.mul_div_le x _, ?_⟩
    rw [shareStop, if_neg (by omega)]
    exact Nat.lt_mul_div_succ x hpos
  · refine ⟨n - 1, by omega, hge, ?_⟩
    rwa [shareStop, if_pos (by omega)]

end MuseKv.General
