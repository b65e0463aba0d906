import MuseKv.Str
import Mathlib.Data.Nat.Sqrt

/-!
# The keys

`GCD` and the functions of `encrypt.cpp` that draw the primes and derive the two keys.  What `rand()`
returns, call by call, is an argument (`rand`); a loop that is not over when these values are used up
has no result (`none`).  The `sqrt` of an `int` is exact before it is cut down.
-/

namespace MuseKv.Encrypt

/-! ### `GCD` -/

/-- `GCD(n1, n2)`. -/
def gcd (n1 n2 : Int) : Int :=
  if n1 = 0 then n2 else gcd (n2.tmod n1) n1
termination_by n1.natAbs
decreasing_by
  rw [Int.natAbs_tmod]
  exact Nat.mod_lt _ (Int.natAbs_pos.mpr ‹_›)

/-! ### `get_prime` -/

/-- `(int)(sqrt((double)n))`. -/
def sqrtInt (n : Int) : Int := (n.toNat.sqrt : ℕ)

/-- The loop that looks for a divisor of `n`, from `i` on, with the number of rounds left: the `flag`
it leaves. -/
def trial (n : Int) : ℕ → Int → Bool
  | 0, _ => true
  | rounds + 1, i => if n.tmod i = 0 then false else trial n rounds (i + 1)

/-- `rand() % (upperbdd - lowerbdd) + lowerbdd`. -/
def draw (lowerbdd upperbdd : Int) (r : ℕ) : Int := (r : Int).tmod (upperbdd - lowerbdd) + lowerbdd

/-- The loop that draws `p`, with `i <= sqrt(p)`: the number, and the values of `rand()` behind it. -/
def drawFirst (lowerbdd upperbdd : Int) : List ℕ → Option (Int × List ℕ)
  | [] => none
  | r :: rand =>
    let p := draw lowerbdd upperbdd r
    if trial p (sqrtInt p - 1).toNat 2 then some (p, rand) else drawFirst lowerbdd upperbdd rand

/-- The loop that draws `q`, with `i < sqrt(q)`. -/
def drawSecond (lowerbdd upperbdd p : Int) : List ℕ → Option Int
  | [] => none
  | r :: rand =>
    let q := draw lowerbdd upperbdd r
    if q = p then drawSecond lowerbdd upperbdd p rand
    else if trial q (sqrtInt q - 2).toNat 2 then some q
    else drawSecond lowerbdd upperbdd p rand

/-- `get_prime`. -/
def getPrime (lowerbdd upperbdd : Int) (rand : List ℕ) : Option (Int × Int) :=
  (drawFirst lowerbdd upperbdd rand).bind fun x =>
    (drawSecond lowerbdd upperbdd x.1 x.2).map fun q => (x.1, q)

/-! ### The exponents -/

/-- `get_encrypt_key`. -/
def getEncryptKey (P : Int) : List ℕ → Option Int
  | [] => none
  | r :: rand =>
    let e := (r : Int).tmod P
    if gcd e P = 1 then some e else getEncryptKey P rand

/-- The loop of `get_decrypt_key` from `d` on, with the number of rounds left. -/
def decryptKeyFrom (P e : Int) : ℕ → Int → Int
  | 0, _ => -1
  | rounds + 1, d =>
    let prod := wrapU64 ((wrapU64 d : Int) * wrapU64 e)
    if prod % wrapU64 P = 1 then d else decryptKeyFrom P e rounds (d + 1)

/-- `get_decrypt_key`. -/
def getDecryptKey (P e : Int) : Int := decryptKeyFrom P e (P - 1).toNat 1

end MuseKv.Encrypt
