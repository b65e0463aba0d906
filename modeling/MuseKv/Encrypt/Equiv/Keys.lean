import MuseKv.Encrypt.Keys
import MuseKv.Encrypt.Basic
import Mathlib.Data.Int.GCD

/-!
# The keys are those of RSA, but for one prime

`GCD` is the greatest common divisor (`gcd_eq`), so every exponent that `get_encrypt_key` draws has an
inverse, and `get_decrypt_key` finds it (**`derives_keys`**).

The first loop of `get_prime` tries every divisor up to the root, and accepts the primes
(`trial_first_iff`).  The second one stops in front of the root, and also accepts a number whose least
prime factor is its root, cut down to an `int` (`trial_second_iff`).  **`drawsPrimes_iff`** says for
which values of `rand()` that does not happen.
-/

namespace MuseKv.Encrypt

/-! ### `GCD` -/

theorem gcd_natCast (a b : ℕ) : gcd a b = (a.gcd b : ℕ) := by
  induction a using Nat.strong_induction_on generalizing b with
  | _ a ih =>
    rw [gcd]
    by_cases ha : a = 0
    · subst ha
      rw [if_pos Int.natCast_zero, Nat.gcd_zero_left]
    · rw [if_neg (by exact_mod_cast ha), ← Int.ofNat_tmod, ih _ (Nat.mod_lt _ (Nat.pos_of_ne_zero ha)),
        Nat.gcd_rec a b]

/-- **`GCD` is the greatest common divisor** of two numbers that are not negative. -/
theorem gcd_eq {n1 n2 : Int} (h₁ : 0 ≤ n1) (h₂ : 0 ≤ n2) : gcd n1 n2 = (n1.gcd n2 : ℕ) := by
  obtain ⟨a, rfl⟩ := Int.eq_ofNat_of_zero_le h₁
  obtain ⟨b, rfl⟩ := Int.eq_ofNat_of_zero_le h₂
  exact gcd_natCast a b

/-! ### `get_encrypt_key` -/

/-- What is drawn is a residue without a common divisor with the modulus. -/
theorem getEncryptKey_spec {P e : Int} (hP : 2 ≤ P) {rand : List ℕ}
    (h : getEncryptKey P rand = some e) : 0 ≤ e ∧ e < P ∧ e.gcd P = 1 := by
  induction rand with
  | nil => exact absurd h (by simp [getEncryptKey])
  | cons r rand ih =>
    rw [getEncryptKey] at h
    split_ifs at h with hgcd
    · obtain rfl := Option.some.inj h
      have hnonneg : 0 ≤ (r : Int).tmod P := Int.tmod_nonneg P (Int.natCast_nonneg r)
      rw [gcd_eq hnonneg (by omega)] at hgcd
      exact ⟨hnonneg, Int.tmod_lt_of_pos _ (by omega), by exact_mod_cast hgcd⟩
    · exact ih h

/-! ### `get_decrypt_key` -/

/-- The product of two residues is not cut down. -/
theorem prod_eq {P e d : Int} (hP : 2 ≤ P) (hP' : P < 2 ^ 31) (he₀ : 0 ≤ e) (he : e < P)
    (hd₀ : 0 ≤ d) (hd : d < P) :
    wrapU64 ((wrapU64 d : Int) * wrapU64 e) % wrapU64 P = 1 ↔ e * d % P = 1 := by
  rw [wrapU64_of_bounds hd₀ (by omega), wrapU64_of_bounds he₀ (by omega),
    wrapU64_of_bounds (by omega : 0 ≤ P) (by omega), Int.toNat_of_nonneg hd₀, Int.toNat_of_nonneg he₀,
    wrapU64_of_bounds (by positivity) (by nlinarith), mul_comm e d]
  rw [← Int.natCast_inj, Int.natCast_mod, Int.toNat_of_nonneg (by positivity),
    Int.toNat_of_nonneg (by omega)]
  rfl

/-- The loop finds the first inverse, or none. -/
theorem decryptKeyFrom_spec {P e : Int} (hP : 2 ≤ P) (hP' : P < 2 ^ 31) (he₀ : 0 ≤ e) (he : e < P) :
    ∀ (rounds : ℕ) (d : Int), 0 ≤ d → d + rounds = P →
      (d ≤ decryptKeyFrom P e rounds d ∧ decryptKeyFrom P e rounds d < P ∧
          e * decryptKeyFrom P e rounds d % P = 1) ∨
        (decryptKeyFrom P e rounds d = -1 ∧ ∀ x, d ≤ x → x < P → e * x % P ≠ 1) := by
  intro rounds
  induction rounds with
  | zero =>
    intro d _ hd
    refine Or.inr ⟨rfl, fun x hx hx' => ?_⟩
    push_cast at hd
    omega
  | succ rounds ih =>
    intro d hd₀ hd
    push_cast at hd
    rw [decryptKeyFrom]
    have hprod := prod_eq hP hP' he₀ he hd₀ (by omega)
    split_ifs with hone
    · exact Or.inl ⟨le_rfl, by omega, hprod.mp hone⟩
    · -- `d` is no inverse, so the first one is behind it
      rcases ih (d + 1) (by omega) (by omega) with ⟨hle, hlt, hinv⟩ | ⟨hnone, hall⟩
      · exact Or.inl ⟨by omega, hlt, hinv⟩
      · refine Or.inr ⟨hnone, fun x hx hx' => ?_⟩
        rcases hx.eq_or_lt with rfl | hx
        · exact fun hinv => hone (hprod.mpr hinv)
        · exact hall x hx hx'

/-- An inverse in the interval that is searched. -/
theorem exists_inverse {P e : Int} (hP : 2 ≤ P) :
    (∃ x, 1 ≤ x ∧ x < P ∧ e * x % P = 1) ↔ e.gcd P = 1 := by
  constructor
  · rintro ⟨x, -, -, hx⟩
    rw [← Int.isCoprime_iff_gcd_eq_one]
    refine ⟨x, -(e * x / P), ?_⟩
    have hdiv := Int.emod_add_mul_ediv (e * x) P
    rw [hx] at hdiv
    linarith
  · intro hgcd
    obtain ⟨a, b, hab⟩ := Int.isCoprime_iff_gcd_eq_one.mpr hgcd
    have hinv : e * (a % P) % P = 1 := by
      rw [Int.mul_emod, Int.emod_emod_of_dvd a (dvd_refl P), ← Int.mul_emod,
        show e * a = 1 + P * (-b) by linarith, Int.add_mul_emod_self_left,
        Int.emod_eq_of_lt (by norm_num) (by omega)]
    have hpos : 0 ≤ a % P := Int.emod_nonneg a (by omega)
    refine ⟨a % P, ?_, Int.emod_lt_of_pos a (by omega), hinv⟩
    rcases hpos.eq_or_lt with hzero | hpos
    · rw [← hzero, mul_zero, Int.zero_emod] at hinv
      exact absurd hinv (by norm_num)
    · exact hpos

/-- **The keys are derived**: an exponent that can be drawn has an inverse, which is found, and for any
other exponent nothing is found.  `GCD`, by which they are told apart, is the greatest common
divisor. -/
theorem derives_keys {P : Int} (hP : 2 ≤ P) (hP' : P < 2 ^ 31) :
    (∀ e, (∃ rand, getEncryptKey P rand = some e) → 0 ≤ e ∧ e < P ∧ e.gcd P = 1) ∧
      (∀ e, 0 ≤ e → e < P → e.gcd P = 1 → 1 ≤ getDecryptKey P e ∧ getDecryptKey P e < P ∧
        e * getDecryptKey P e % P = 1) ∧
      (∀ e, 0 ≤ e → e < P → e.gcd P ≠ 1 → getDecryptKey P e = -1) ∧
      ∀ n1 n2 : Int, 0 ≤ n1 → 0 ≤ n2 → ¬ (n1 = 0 ∧ n2 = 0) → gcd n1 n2 = (n1.gcd n2 : ℕ) := by
  have hrounds : (1 : Int) + ((P - 1).toNat : ℕ) = P := by omega
  refine ⟨fun e ⟨rand, h⟩ => getEncryptKey_spec hP h, fun e he₀ he hgcd => ?_, fun e he₀ he hgcd => ?_,
    fun n1 n2 h₁ h₂ _ => gcd_eq h₁ h₂⟩
  · rcases decryptKeyFrom_spec hP hP' he₀ he (P - 1).toNat 1 (by norm_num) hrounds with hfound | hnone
    · exact hfound
    · obtain ⟨x, hx, hx', hinv⟩ := (exists_inverse hP).mpr hgcd
      exact absurd hinv (hnone.2 x hx hx')
  · rcases decryptKeyFrom_spec hP hP' he₀ he (P - 1).toNat 1 (by norm_num) hrounds with hfound | hnone
    · exact absurd ((exists_inverse hP).mp ⟨_, hfound⟩) hgcd
    · exact hnone.1

/-- The key of the snapshot has an inverse, which is found. -/
theorem derives_keys_snapshot : 1 ≤ getDecryptKey (1020 * 1452) 28969 ∧
    getDecryptKey (1020 * 1452) 28969 < 1020 * 1452 ∧
    28969 * getDecryptKey (1020 * 1452) 28969 % (1020 * 1452) = 1 :=
  (derives_keys (P := 1020 * 1452) (by norm_num) (by norm_num)).2.1 28969 (by norm_num) (by norm_num)
    (by norm_num)

/-! ### The two loops of `get_prime` -/

/-- The flag says that no number of the range divides. -/
theorem trial_iff {n : ℕ} : ∀ (rounds i : ℕ),
    trial n rounds i = true ↔ ∀ j, i ≤ j → j < i + rounds → ¬ j ∣ n := by
  intro rounds
  induction rounds with
  | zero =>
    intro i
    exact iff_of_true rfl fun j hj hj' => absurd hj' (by omega)
  | succ rounds ih =>
    intro i
    rw [trial, ← Int.ofNat_tmod]
    by_cases hdvd : n % i = 0
    · rw [if_pos (by exact_mod_cast hdvd)]
      refine iff_of_false (by simp) fun h => ?_
      exact h i le_rfl (by omega) (Nat.dvd_of_mod_eq_zero hdvd)
    · rw [if_neg (by exact_mod_cast hdvd), show ((i : Int) + 1) = ((i + 1 : ℕ) : Int) by push_cast; rfl,
        ih]
      constructor
      · intro h j hj hj'
        rcases hj.eq_or_lt with rfl | hj
        · exact fun hdvd' => hdvd (Nat.mod_eq_zero_of_dvd hdvd')
        · exact h j hj (by omega)
      · exact fun h j hj hj' => h j (by omega) (by omega)

theorem trial_two_iff {n rounds : ℕ} :
    trial n rounds 2 = true ↔ ∀ j, 2 ≤ j → j < 2 + rounds → ¬ j ∣ n := trial_iff rounds 2

/-- **The first loop accepts the primes.** -/
theorem trial_first_iff {n : ℕ} (hn : 2 ≤ n) :
    trial n (sqrtInt n - 1).toNat 2 = true ↔ n.Prime := by
  have hroot : 1 ≤ n.sqrt := Nat.le_sqrt.mpr (by omega)
  have hrounds : (sqrtInt n - 1).toNat = n.sqrt - 1 := by
    rw [sqrtInt, Int.toNat_natCast]
    omega
  rw [hrounds, trial_two_iff, Nat.prime_def_le_sqrt, and_iff_right hn]
  refine forall_congr' fun j => forall_congr' fun _ => ?_
  rw [show j < 2 + (n.sqrt - 1) ↔ j ≤ n.sqrt by omega]

/-- **The second loop accepts the numbers without a prime factor below the root.** -/
theorem trial_second_iff {n : ℕ} (hn : 2 ≤ n) :
    trial n (sqrtInt n - 2).toNat 2 = true ↔ n.sqrt ≤ n.minFac := by
  have hrounds : (sqrtInt n - 2).toNat = n.sqrt - 2 := by
    rw [sqrtInt, Int.toNat_natCast]
    omega
  rw [hrounds, trial_two_iff]
  constructor
  · intro h
    by_contra hlt
    have htwo := (Nat.minFac_prime (show n ≠ 1 by omega)).two_le
    exact h n.minFac htwo (by omega) (Nat.minFac_dvd n)
  · intro h j hj hj' hdvd
    have hle := Nat.minFac_le_of_dvd hj hdvd
    omega

/-! ### `get_prime` -/

/-- The numbers that the values of `rand()` stand for. -/
def candidates (lowerbdd upperbdd : Int) (rand : List ℕ) : List ℕ :=
  rand.map fun r => (draw lowerbdd upperbdd r).toNat

variable {lowerbdd upperbdd : Int}

/-- A number that is drawn is within the bounds. -/
theorem draw_eq (hlo : 2 ≤ lowerbdd) (r : ℕ) :
    ∃ n : ℕ, draw lowerbdd upperbdd r = n ∧ 2 ≤ n := by
  have hnonneg : 0 ≤ (r : Int).tmod (upperbdd - lowerbdd) := Int.tmod_nonneg _ (Int.natCast_nonneg r)
  refine ⟨(draw lowerbdd upperbdd r).toNat, ?_, ?_⟩
  · rw [draw, Int.toNat_of_nonneg (by omega)]
  · rw [draw]
    omega

/-- The first loop goes on to the first prime. -/
theorem drawFirst_eq (hlo : 2 ≤ lowerbdd) (rand : List ℕ) :
    ((drawFirst lowerbdd upperbdd rand).elim [] fun x =>
        x.1.toNat :: candidates lowerbdd upperbdd x.2) =
      (candidates lowerbdd upperbdd rand).dropWhile fun n => ¬ n.Prime := by
  induction rand with
  | nil => rfl
  | cons r rand ih =>
    obtain ⟨n, hn, htwo⟩ := draw_eq hlo r
    rw [drawFirst, candidates, List.map_cons, ← candidates, hn, Int.toNat_natCast]
    by_cases hprime : n.Prime
    · rw [if_pos ((trial_first_iff htwo).mpr hprime), List.dropWhile_cons_of_neg (by simpa using hprime)]
      rfl
    · rw [if_neg fun h => hprime ((trial_first_iff htwo).mp h),
        List.dropWhile_cons_of_pos (by simpa using hprime), ih]

/-- The first loop leaves a number that was drawn. -/
theorem drawFirst_nonneg (hlo : 2 ≤ lowerbdd) {rand : List ℕ}
    {x : Int × List ℕ} (h : drawFirst lowerbdd upperbdd rand = some x) : 0 ≤ x.1 := by
  induction rand with
  | nil => exact absurd h (by simp [drawFirst])
  | cons r rand ih =>
    rw [drawFirst] at h
    split_ifs at h
    · obtain ⟨n, hn, -⟩ := draw_eq hlo r
      obtain rfl := Option.some.inj h
      rw [hn]
      exact Int.natCast_nonneg n
    · exact ih h

/-- The second loop goes on to the first other number without a prime factor below its root. -/
theorem drawSecond_eq (hlo : 2 ≤ lowerbdd) (p : ℕ) (rand : List ℕ) :
    (drawSecond lowerbdd upperbdd p rand).map Int.toNat =
      (candidates lowerbdd upperbdd rand).find? fun n => n ≠ p ∧ n.sqrt ≤ n.minFac := by
  induction rand with
  | nil => rfl
  | cons r rand ih =>
    obtain ⟨n, hn, htwo⟩ := draw_eq hlo r
    rw [drawSecond, candidates, List.map_cons, ← candidates, hn, Int.toNat_natCast]
    by_cases hnp : n = p
    · rw [if_pos (by exact_mod_cast hnp), List.find?_cons_of_neg (by simp [hnp]), ih]
    rw [if_neg (by exact_mod_cast hnp)]
    by_cases hroot : n.sqrt ≤ n.minFac
    · rw [if_pos ((trial_second_iff htwo).mpr hroot), List.find?_cons_of_pos (by simp [hnp, hroot])]
      rfl
    · rw [if_neg fun h => hroot ((trial_second_iff htwo).mp h), List.find?_cons_of_neg (by simp [hroot]),
        ih]

/-- What is drawn is prime: behind the first prime, the first other number whose least prime factor is
not below its root is a prime. -/
def DrawsPrimes (cs : List ℕ) : Prop :=
  ∀ p rest q, (cs.dropWhile fun n => ¬ n.Prime) = p :: rest →
    (rest.find? fun n => n ≠ p ∧ n.sqrt ≤ n.minFac) = some q → q.Prime

/-- The two numbers that `get_prime` returns. -/
theorem getPrime_eq_some (hlo : 2 ≤ lowerbdd) {rand : List ℕ} {p q : ℕ} :
    (∃ x, getPrime lowerbdd upperbdd rand = some x ∧ x.1.toNat = p ∧ x.2.toNat = q) ↔
      ∃ rest, ((candidates lowerbdd upperbdd rand).dropWhile fun n => ¬ n.Prime) = p :: rest ∧
        (rest.find? fun n => n ≠ p ∧ n.sqrt ≤ n.minFac) = some q := by
  rw [getPrime, ← drawFirst_eq hlo]
  cases hfirst : drawFirst lowerbdd upperbdd rand with
  | none => simp
  | some x =>
    have hp := Int.toNat_of_nonneg (drawFirst_nonneg hlo hfirst)
    simp only [Option.bind_some, Option.elim_some, List.cons.injEq]
    constructor
    · rintro ⟨y, hy, rfl, rfl⟩
      obtain ⟨q, hq, rfl⟩ := Option.map_eq_some_iff.mp hy
      refine ⟨_, ⟨rfl, rfl⟩, ?_⟩
      rw [← drawSecond_eq hlo, hp, hq, Option.map_some]
    · rintro ⟨_, ⟨rfl, rfl⟩, hfind⟩
      rw [← drawSecond_eq hlo, hp] at hfind
      obtain ⟨q, hq, rfl⟩ := Option.map_eq_some_iff.mp hfind
      exact ⟨(x.1, q), by rw [hq, Option.map_some], rfl, rfl⟩

/-- **`get_prime` returns two primes** if and only if the values of `rand()` stand for numbers where
the first one that the second loop accepts is a prime. -/
theorem drawsPrimes_iff (hlo : 2 ≤ lowerbdd) (rand : List ℕ) :
    (∀ p q, getPrime lowerbdd upperbdd rand = some (p, q) →
        p ≠ q ∧ p.toNat.Prime ∧ q.toNat.Prime) ↔
      DrawsPrimes (candidates lowerbdd upperbdd rand) := by
  constructor
  · intro h p rest q hdrop hfind
    obtain ⟨x, hx, rfl, rfl⟩ := (getPrime_eq_some hlo).mpr ⟨rest, hdrop, hfind⟩
    exact (h x.1 x.2 hx).2.2
  · intro h p q hpq
    obtain ⟨rest, hdrop, hfind⟩ := (getPrime_eq_some hlo).mp ⟨(p, q), hpq, rfl, rfl⟩
    refine ⟨?_, ?_, h _ rest _ hdrop hfind⟩
    · rintro rfl
      simpa using List.find?_some hfind
    · -- the first number that is not skipped is a prime
      have hhead := List.head?_dropWhile_not (fun n : ℕ => decide (¬ n.Prime))
        (candidates lowerbdd upperbdd rand)
      rw [hdrop, List.head?_cons] at hhead
      simpa using hhead

/-- The root of a number that is not large. -/
theorem sqrtInt_eq {n a : ℕ} (h : a * a ≤ n ∧ n < (a + 1) * (a + 1)) : sqrtInt n = a := by
  rw [sqrtInt, Int.toNat_natCast, ← Nat.eq_sqrt.mpr h]

/-- The bounds of `key_generator`, and values that stand for two primes. -/
theorem drawsPrimes_key : getPrime 256 1024 [1, 7] = some (257, 263) ∧ (257 : Int) ≠ 263 ∧
    (257 : Int).toNat.Prime ∧ (263 : Int).toNat.Prime := by
  have hroot : sqrtInt 257 = 16 := sqrtInt_eq (n := 257) (a := 16) (by norm_num)
  have hroot' : sqrtInt 263 = 16 := sqrtInt_eq (n := 263) (a := 16) (by norm_num)
  have hdraw : draw 256 1024 1 = 257 ∧ draw 256 1024 7 = 263 := ⟨by decide, by decide⟩
  have hget : getPrime 256 1024 [1, 7] = some (257, 263) := by
    rw [getPrime, drawFirst, hdraw.1, hroot, if_pos (by decide), Option.bind_some, drawSecond, hdraw.2,
      if_neg (by norm_num), hroot', if_pos (by decide), Option.map_some]
  refine ⟨hget, (drawsPrimes_iff (by norm_num) [1, 7]).mpr ?_ 257 263 hget⟩
  have hfirst : Nat.Prime 257 := by norm_num
  have hsecond : Nat.Prime 263 := by norm_num
  rw [candidates, List.map_cons, List.map_cons, List.map_nil, hdraw.1, hdraw.2]
  intro p rest q hdrop hfind
  rw [List.dropWhile_cons_of_neg (by simpa using hfirst)] at hdrop
  obtain ⟨rfl, rfl⟩ := List.cons.inj hdrop
  rw [List.mem_singleton.mp (List.mem_of_find?_eq_some hfind)]
  exact hsecond

/-- **The square of a prime is drawn.**  Between `256` and `1024` the values `1` and `33` stand for
`257` and for `289 = 17 * 17`, whose root is `17`. -/
theorem not_drawsPrimes_square :
    getPrime 256 1024 [1, 33] = some (257, 289) ∧
    ¬ ∀ (lowerbdd upperbdd : Int) (rand : List ℕ) (p q : Int), 2 ≤ lowerbdd → lowerbdd < upperbdd →
      getPrime lowerbdd upperbdd rand = some (p, q) → p ≠ q ∧ p.toNat.Prime ∧ q.toNat.Prime := by
  have hroot : sqrtInt 257 = 16 := sqrtInt_eq (n := 257) (a := 16) (by norm_num)
  have hroot' : sqrtInt 289 = 17 := sqrtInt_eq (n := 289) (a := 17) (by norm_num)
  have hdraw : draw 256 1024 1 = 257 ∧ draw 256 1024 33 = 289 := ⟨by decide, by decide⟩
  have hget : getPrime 256 1024 [1, 33] = some (257, 289) := by
    rw [getPrime, drawFirst, hdraw.1, hroot, if_pos (by decide), Option.bind_some, drawSecond, hdraw.2,
      if_neg (by norm_num), hroot', if_pos (by decide), Option.map_some]
  refine ⟨hget, fun h => ?_⟩
  have hprime : Nat.Prime 289 := (h 256 1024 [1, 33] 257 289 (by norm_num) (by norm_num) hget).2.2
  exact absurd hprime (by norm_num)

end MuseKv.Encrypt
