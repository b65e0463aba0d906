import MuseKv.Str
import MuseKv.General.Rsa
import Mathlib.Tactic.NormNum.Prime

/-!
# `encrypt` and `decrypt`

The two modular exponentiations of `encrypt.cpp`, and the modulus and exponent that the snapshot
and the log are written with.
-/

namespace MuseKv.Encrypt

open General

/-- The modulus of the snapshot, `1021 * 1453`. -/
def modulus : Int := 1483513

/-- The exponent the snapshot is encrypted with. -/
def exponent : Int := 28969

/-- `encrypt(N, e, message)`: the products are `uint64_t`s, the result is cut down to an `int`. -/
def encrypt (N e : Int) (message : UInt8) : Int :=
  wrap32 (powMod (2 ^ 64) (wrapU64 N) message.toNat e.toNat)

/-- `decrypt(N, d, encrypted_message)`: the result is cut down to a `uint8_t`. -/
def decrypt (N d encryptedMessage : Int) : UInt8 :=
  UInt8.ofNat (powMod (2 ^ 64) (wrapU64 N) (wrapU64 encryptedMessage) d.toNat)

/-- `encrypt_string`: each byte as its encrypted number with a backslash behind it. -/
def encryptString (N e : Int) (message : Str) : Str :=
  message.flatMap fun c => toStr (encrypt N e c) ++ [byte '\\']

/-! ### Decrypting an encrypted byte -/

theorem wrapU64_of_bounds {x : Int} (h₀ : 0 ≤ x) (h : x < 2 ^ 64) : wrapU64 x = x.toNat := by
  rw [wrapU64, Int.emod_eq_of_lt h₀ h]

/-- An encrypted byte is a residue modulo `N`. -/
theorem encrypt_eq {N : ℕ} (hN : 1 < N) (hN' : N < 2 ^ 31) (e : Int) (m : UInt8) :
    encrypt N e m = ((m.toNat ^ e.toNat % N : ℕ) : Int) := by
  have hm := m.toNat_lt
  have hlt : m.toNat ^ e.toNat % N < N := Nat.mod_lt _ (by omega)
  rw [encrypt, wrapU64_of_bounds (by omega) (by omega), Int.toNat_natCast, powMod_eq hN (by nlinarith)]
  exact wrap32_of_bounds (by omega) (by omega)

theorem decrypt_eq {N c : ℕ} (hN : 1 < N) (hN' : N < 2 ^ 31) (hc : c < N) (d : Int) :
    decrypt N d c = UInt8.ofNat (c ^ d.toNat % N) := by
  rw [decrypt, wrapU64_of_bounds (by omega) (by omega), wrapU64_of_bounds (by omega) (by omega),
    Int.toNat_natCast, Int.toNat_natCast, powMod_eq hN (by nlinarith)]

/-- **Decryption inverts encryption** on every byte, for matching positive exponents. -/
theorem decrypt_encrypt {p q : ℕ} (hp : p.Prime) (hq : q.Prime) (hpq : p ≠ q)
    (hlo : 255 < p * q) (hhi : p * q < 2 ^ 31) {e d : Int} (he : 0 < e) (hd : 0 < d)
    (h : e.toNat * d.toNat ≡ 1 [MOD (p - 1) * (q - 1)]) (m : UInt8) :
    decrypt (p * q : ℕ) d (encrypt (p * q : ℕ) e m) = m := by
  have hm := m.toNat_lt
  rw [encrypt_eq (by omega) hhi, decrypt_eq (by omega) hhi (Nat.mod_lt _ (by omega))]
  have hpow : (m.toNat ^ e.toNat % (p * q)) ^ d.toNat % (p * q) = m.toNat := by
    rw [← Nat.pow_mod, ← pow_mul]
    have hk : 0 < e.toNat * d.toNat := Nat.mul_pos (by omega) (by omega)
    have := pow_modEq_self hp hq hpq hk h m.toNat
    rw [Nat.ModEq, Nat.mod_eq_of_lt (by omega : m.toNat < p * q)] at this
    exact this
  rw [hpow, UInt8.ofNat_toNat]

/-- The snapshot key: with a positive `d` such that `28969 d ≡ 1` modulo `1020 · 1452`. -/
theorem decrypt_encrypt_modulus {d : Int} (hd : 0 < d) (h : 28969 * d % (1020 * 1452) = 1)
    (m : UInt8) : decrypt modulus d (encrypt modulus exponent m) = m := by
  have hp : Nat.Prime 1021 := by norm_num
  have hq : Nat.Prime 1453 := by norm_num
  refine decrypt_encrypt hp hq (by norm_num) (by norm_num) (by norm_num) (e := exponent) (by decide) hd ?_ m
  have he : exponent.toNat = 28969 := rfl
  rw [he, Nat.ModEq]
  omega

/-- A loop with a negative bound does not run: every message decrypts to the byte `1`. -/
theorem decrypt_of_nonpos {d : Int} (hd : d ≤ 0) (N c : Int) : decrypt N d c = 1 := by
  rw [decrypt, Int.toNat_of_nonpos hd, powMod_zero]
  rfl

end MuseKv.Encrypt
