import MuseKv.Str
import Mathlib.Data.Int.DivMod

/-!
# The string hash functions

The three tables of the program (`Hash`, `Hashset` and `Hashmap`) hash a string with the same
loop over wrapping `int`s, and bring the result into the range of the table with the truncated
remainder of C++.
-/

namespace MuseKv

/-- The loop `hash_val += (str[i] - off) * p; p *= p;`.  Its index is an `unsigned int`, so a key is shorter
than `2^32` bytes. -/
def polyLoop (off : Int) : Str → BitVec 32 → BitVec 32 → BitVec 32
  | [], _, hashVal => hashVal
  | c :: str, p, hashVal =>
    polyLoop off str (p * p) (hashVal + BitVec.ofInt 32 (charToInt c - off) * p)

/-- The loop from `p = 53` and `hash_val = 0`. -/
def polyHash (off : Int) (str : Str) : BitVec 32 := polyLoop off str 53 0

/-- The lines `if (hash_val % n < 0) hash_val = hash_val % n + n; else hash_val = hash_val % n;`. -/
def tableIndex (hashVal : BitVec 32) (n : Int) : Int :=
  if hashVal.toInt.tmod n < 0 then hashVal.toInt.tmod n + n else hashVal.toInt.tmod n

/-- An index lies in the table. -/
theorem tableIndex_bounds (hashVal : BitVec 32) {n : Int} (hn : 0 < n) :
    0 ≤ tableIndex hashVal n ∧ tableIndex hashVal n < n := by
  have hlt := Int.tmod_lt_of_pos hashVal.toInt hn
  have hgt : -n < hashVal.toInt.tmod n := by
    have h := Int.tmod_lt_of_pos (-hashVal.toInt) hn
    rw [Int.neg_tmod] at h
    omega
  unfold tableIndex
  split_ifs
  · omega
  · omega

/-- The index as a bucket number. -/
def bucketOf (hashVal : BitVec 32) (n : ℕ) [NeZero n] : Fin n :=
  ⟨(tableIndex hashVal n).toNat, by
    have hn : 0 < (n : Int) := by exact_mod_cast Nat.pos_of_neZero n
    have := tableIndex_bounds hashVal hn
    omega⟩

theorem bucketOf_val (hashVal : BitVec 32) (n : ℕ) [NeZero n] :
    ((bucketOf hashVal n).val : Int) = tableIndex hashVal n := by
  have hn : 0 < (n : Int) := by exact_mod_cast Nat.pos_of_neZero n
  exact Int.toNat_of_nonneg (tableIndex_bounds hashVal hn).1

end MuseKv
