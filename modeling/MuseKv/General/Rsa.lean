import Mathlib.FieldTheory.Finite.Basic
import Mathlib.Data.Nat.ChineseRemainder

/-!
# The exponent identity behind RSA

For distinct primes `p`, `q` and a positive exponent `k` with `k ≡ 1 mod (p − 1)(q − 1)`, raising to
the `k`-th power is the identity modulo `p q`, on every residue and not only on the units
(`pow_modEq_self`).  `powMod` is the loop that computes a power by repeated multiplication and
reduction in a machine word; as long as the products fit into the word it is the power modulo `N`
(`powMod_eq`), and with a factor that stands for a negative number it is something else (`powMod_sub`).
-/

namespace MuseKv.General

/-! ### The exponent -/

/-- Modulo one prime: Fermat off the multiples of `p`, and `0 = 0` on them. -/
theorem pow_modEq_self_of_prime {p k : ℕ} (hp : p.Prime) (hk : 0 < k) (h : k ≡ 1 [MOD p - 1])
    (m : ℕ) : m ^ k ≡ m [MOD p] := by
  obtain ⟨j, rfl⟩ : ∃ j, k = (p - 1) * j + 1 := by
    obtain ⟨j, hj⟩ := (Nat.modEq_iff_dvd' (show 1 ≤ k from hk)).mp h.symm
    exact ⟨j, by omega⟩
  by_cases hm : p ∣ m
  · have h0 : m ≡ 0 [MOD p] := (Nat.modEq_zero_iff_dvd).mpr hm
    have hpow := h0.pow ((p - 1) * j + 1)
    rw [zero_pow (Nat.succ_ne_zero _)] at hpow
    exact hpow.trans h0.symm
  · have hcop : Nat.Coprime m p := ((Nat.Prime.coprime_iff_not_dvd hp).mpr hm).symm
    have hfermat : m ^ (p - 1) ≡ 1 [MOD p] := by
      rw [← Nat.totient_prime hp]
      exact Nat.ModEq.pow_totient hcop
    calc m ^ ((p - 1) * j + 1) = (m ^ (p - 1)) ^ j * m := by rw [pow_succ, pow_mul]
      _ ≡ 1 ^ j * m [MOD p] := (hfermat.pow j).mul_right m
      _ = m := by rw [one_pow, one_mul]

/-- **The RSA identity**: `m ^ k ≡ m` modulo `p q` when `k ≡ 1` modulo `(p − 1)(q − 1)`. -/
theorem pow_modEq_self {p q k : ℕ} (hp : p.Prime) (hq : q.Prime) (hpq : p ≠ q) (hk : 0 < k)
    (h : k ≡ 1 [MOD (p - 1) * (q - 1)]) (m : ℕ) : m ^ k ≡ m [MOD p * q] := by
  have hcop : Nat.Coprime p q := (Nat.coprime_primes hp hq).mpr hpq
  refine (Nat.modEq_and_modEq_iff_modEq_mul hcop).mp ⟨?_, ?_⟩
  · exact pow_modEq_self_of_prime hp hk (h.of_mul_right _) m
  · exact pow_modEq_self_of_prime hq hk (h.of_mul_left _) m

/-! ### The loop -/

/-- `res = 1; for (i = 0; i < k; i++) res = (res * m) % N;` in words below `W`. -/
def powMod (W N m k : ℕ) : ℕ := (fun res => res * m % W % N)^[k] 1

/-- The loop computes the power when no product overflows. -/
theorem powMod_eq {W N m : ℕ} (hN : 1 < N) (hW : N * m ≤ W) (k : ℕ) :
    powMod W N m k = m ^ k % N := by
  induction k with
  | zero => rw [powMod, Function.iterate_zero_apply, pow_zero, Nat.mod_eq_of_lt hN]
  | succ k ih =>
    rw [powMod] at ih ⊢
    rw [Function.iterate_succ_apply', ih]
    have hlt : m ^ k % N * m < W ∨ m = 0 := by
      rcases Nat.eq_zero_or_pos m with hm | hm
      · exact Or.inr hm
      · exact Or.inl (lt_of_lt_of_le
          (Nat.mul_lt_mul_of_pos_right (Nat.mod_lt _ (by omega)) hm) hW)
    rcases hlt with hlt | rfl
    · rw [Nat.mod_eq_of_lt hlt, Nat.mod_mul_mod, pow_succ]
    · rw [Nat.mul_zero, Nat.zero_mod, pow_succ, Nat.mul_zero]

/-- A loop that never runs leaves the initial `1`. -/
@[simp]
theorem powMod_zero (W N m : ℕ) : powMod W N m 0 = 1 := rfl

theorem powMod_lt {W N : ℕ} (hN : 1 < N) (m k : ℕ) : powMod W N m k < N := by
  cases k with
  | zero => exact hN
  | succ k =>
    rw [powMod, Function.iterate_succ_apply']
    exact Nat.mod_lt _ (by omega)

/-- **A negative factor**: in words below `W` the loop multiplies by `W - k`, that is `-k`, and so adds
`W` in every round, unless it has come to `0`. -/
theorem powMod_sub {W N k j : ℕ} (hN : N = k + j + 1) (hk : 0 < k) (hW : N * k ≤ W) (n : ℕ) :
    powMod W N (W - k) n = 0 ∨ j * powMod W N (W - k) n + W ≡ (j + W) * (j + 1) ^ n [MOD N] := by
  induction n with
  | zero =>
    refine Or.inr ?_
    rw [powMod_zero, mul_one, pow_zero, mul_one]
  | succ n ih =>
    have hlt : powMod W N (W - k) n < N := powMod_lt (by omega) _ n
    have hsucc : powMod W N (W - k) (n + 1) = powMod W N (W - k) n * (W - k) % W % N := by
      rw [powMod, powMod, Function.iterate_succ_apply']
    rcases ih with hzero | hmod
    · rw [hsucc, hzero]
      exact Or.inl (by simp)
    generalize powMod W N (W - k) n = x at hlt hsucc hmod
    rcases Nat.eq_zero_or_pos x with hzero | hpos
    · rw [hsucc, hzero]
      exact Or.inl (by simp)
    have hprod : x * k < W := lt_of_lt_of_le (Nat.mul_lt_mul_of_pos_right hlt hk) hW
    -- the product in a word: `x * (W - k)` is `-x * k`
    have hword : x * (W - k) % W = W - x * k := by
      have hxk : 0 < x * k := Nat.mul_pos hpos hk
      obtain ⟨y, rfl⟩ : ∃ y, x = y + 1 := ⟨x - 1, by omega⟩
      have hsplit : (y + 1) * (W - k) = (W - (y + 1) * k) + W * y := by
        zify [(by nlinarith : k ≤ W), hprod.le]
        ring
      rw [hsplit, Nat.add_mul_mod_self_left, Nat.mod_eq_of_lt (by omega)]
    refine Or.inr ?_
    -- and `-k` is `j + 1` modulo `N`
    have hround : x * (W - k) % W % N ≡ (j + 1) * x + W [MOD N] := by
      have hsum : (j + 1) * x + W = (W - x * k) + N * x := by
        zify [hprod.le]
        rw [hN]
        push_cast
        ring
      rw [hword, hsum]
      exact (Nat.mod_modEq _ N).trans (Nat.ModEq.symm (by rw [Nat.ModEq, Nat.add_mul_mod_self_left]))
    rw [hsucc]
    calc j * (x * (W - k) % W % N) + W ≡ j * ((j + 1) * x + W) + W [MOD N] :=
          (hround.mul_left j).add_right W
      _ = (j + 1) * (j * x + W) := by ring
      _ ≡ (j + 1) * ((j + W) * (j + 1) ^ n) [MOD N] := hmod.mul_left (j + 1)
      _ = (j + W) * (j + 1) ^ (n + 1) := by ring

end MuseKv.General
