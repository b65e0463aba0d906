import MuseKv.Encrypt.Text
import MuseKv.Kvstore.Equiv.Text

/-!
# The encryption is lossless

The text of an encrypted string falls apart into the numbers of its bytes (`split_encryptString`), the
numbers are read back (`readInt_encrypt`), and every byte is decrypted (`decrypt_encrypt`), so
`decrypt_string` gives the string back (`decryptText_encryptText`), as long as the `int`s of the two
routines do not overflow.
-/

namespace MuseKv.Encrypt

open General Kvstore

/-! ### The text -/

/-- Numbers with a backslash behind each fall apart into the numbers. -/
theorem split_numbers (f : UInt8 → Int) (str : Str) :
    (split (str.flatMap fun c => toStr (f c) ++ [byte '\\']) (byte '\\')).dropLast
      = str.map fun c => toStr (f c) := by
  have hmerge : (str.flatMap fun c => toStr (f c) ++ [byte '\\'])
      = merge (byte '\\') ((str.map fun c => toStr (f c)) ++ [[]]) := by
    induction str with
    | nil => rfl
    | cons c str ih =>
      rw [List.flatMap_cons, ih, List.map_cons, List.cons_append, merge_cons _ _ (by simp),
        List.append_assoc, List.singleton_append]
  rw [hmerge]
  cases str with
  | nil => rfl
  | cons c str =>
    rw [split_merge, List.dropLast_concat]
    · intro x hx
      rcases List.mem_append.mp hx with hx | hx
      · obtain ⟨c, -, rfl⟩ := List.mem_map.mp hx
        exact not_mem_toStr (by decide) (by decide) _
      · simp [List.mem_singleton.mp hx]
    · rw [Ne, merge_eq_nil]
      simp

/-- An encrypted string falls apart into the numbers of its bytes. -/
theorem split_encryptString (N e : Int) (str : Str) :
    (split (encryptString N e str) (byte '\\')).dropLast
      = str.map fun c => toStr (encrypt N e c) := split_numbers (encrypt N e) str

variable {N : ℕ} {e d : Int}

/-- The number of a byte is read back. -/
theorem readInt_encrypt (hN : 1 < N) (hN' : N < 2 ^ 31) (e : Int) (c : UInt8) :
    readInt (toStr (encrypt N e c)) = some (true, encrypt N e c) := by
  have hlt : c.toNat ^ e.toNat % N < 2 ^ 31 := (Nat.mod_lt _ (by omega)).trans hN'
  rw [encrypt_eq hN hN', readInt_of_length, strtoint_toStr hlt]
  exact (length_toStr_natCast_le hlt).trans_lt (by norm_num)

/-- The pieces of an encrypted string are decrypted one by one. -/
theorem decryptWords_encrypt (hN : 1 < N) (hN' : N < 2 ^ 31) (e d : Int) (str : Str) :
    decryptWords N d (str.map fun c => toStr (encrypt N e c))
      = some (some (str.map fun c => decrypt N d (encrypt N e c))) := by
  induction str with
  | nil => rfl
  | cons c str ih =>
    rw [List.map_cons, decryptWords, readInt_encrypt hN hN']
    simp only [ih, Option.map_some, List.map_cons]

/-! ### The products -/

/-- **No product of the loop overflows**, if the message is below `2 ^ 31` as the modulus is. -/
theorem product_lt (hN : 1 < N) (hN' : N < 2 ^ 31) {m : ℕ} (hm : m < 2 ^ 31) (i : ℕ) :
    powMod (2 ^ 64) N m i * m < 2 ^ 64 := by
  have hbound : N * m ≤ 2 ^ 64 := by nlinarith
  have hres : powMod (2 ^ 64) N m i < N := by
    rw [powMod_eq hN hbound]
    exact Nat.mod_lt _ (by omega)
  nlinarith

theorem encryptProduct_lt (hN : 1 < N) (hN' : N < 2 ^ 31) (c : UInt8) (i : ℕ) :
    encryptProduct N c i < 2 ^ 64 := by
  have hc := c.toNat_lt
  rw [encryptProduct, wrapU64_of_bounds (by omega) (by omega), Int.toNat_natCast]
  exact product_lt hN hN' (by omega) i

theorem decryptProduct_lt (hN : 1 < N) (hN' : N < 2 ^ 31) (e : Int) (c : UInt8) (i : ℕ) :
    decryptProduct N (encrypt N e c) i < 2 ^ 64 := by
  have hlt : c.toNat ^ e.toNat % N < N := Nat.mod_lt _ (by omega)
  rw [decryptProduct, encrypt_eq hN hN', wrapU64_of_bounds (by omega) (by omega),
    wrapU64_of_bounds (by omega) (by omega), Int.toNat_natCast, Int.toNat_natCast]
  exact product_lt hN hN' (by omega) i

/-! ### The string -/

/-- Decrypting undoes the encryption of a string if it undoes that of every byte. -/
theorem decryptString_of_bytes (hN : 1 < N) (hN' : N < 2 ^ 31) {s : Str}
    (hbytes : ∀ c ∈ s, decrypt N d (encrypt N e c) = c) (hs : s ≠ []) (h0 : (0 : UInt8) ∉ s) :
    decryptString N d (encryptString N e s) = some s := by
  have hne : encryptString N e s ≠ [] := by
    obtain ⟨c, s, rfl⟩ := List.exists_cons_of_ne_nil hs
    rw [encryptString, List.flatMap_cons]
    simp
  have hself : (s.map fun c => decrypt N d (encrypt N e c)) = s := by
    rw [List.map_congr_left hbytes, List.map_id']
  unfold decryptString
  rw [if_neg hne, split_encryptString, decryptWords_encrypt hN hN', hself, Option.map_some]
  exact congrArg some (cString_of_not_mem h0)

/-- An encrypted string has a backslash for every character. -/
theorem count_encryptString (N e : Int) (str : Str) :
    (encryptString N e str).count (byte '\\') = str.length := by
  induction str with
  | nil => rfl
  | cons c str ih =>
    have hnumber : (toStr (encrypt N e c)).count (byte '\\') = 0 :=
      List.count_eq_zero.mpr (not_mem_toStr (by decide) (by decide) _)
    have hstr : encryptString N e (c :: str)
        = toStr (encrypt N e c) ++ [byte '\\'] ++ encryptString N e str := List.flatMap_cons
    rw [hstr, List.count_append, List.count_append, hnumber, ih, List.count_singleton_self,
      List.length_cons, zero_add, add_comm]

/-- A character has ten digits at most, and a backslash. -/
theorem length_encryptString_le (hN : 1 < N) (hN' : N < 2 ^ 31) (e : Int) (str : Str) :
    (encryptString N e str).length ≤ 11 * str.length := by
  induction str with
  | nil => exact Nat.zero_le _
  | cons c str ih =>
    have hnumber : (toStr (encrypt N e c)).length ≤ 10 := by
      rw [encrypt_eq hN hN']
      exact length_toStr_natCast_le ((Nat.mod_lt _ (by omega)).trans hN')
    have hstr : encryptString N e (c :: str)
        = toStr (encrypt N e c) ++ [byte '\\'] ++ encryptString N e str := List.flatMap_cons
    rw [hstr, List.length_append, List.length_append, List.length_singleton, List.length_cons]
    omega

/-- **The encryption is lossless**, and no product overflows on the way, for a string of fewer than
`2^31 - 1` characters whose encryption has fewer than `2^32`. -/
theorem decryptText_encryptText {p q : ℕ} (hp : p.Prime) (hq : q.Prime) (hpq : p ≠ q)
    (hlo : 255 < p * q) (hhi : p * q < 2 ^ 31) (he : 0 < e) (hd : 0 < d)
    (h : e * d ≡ 1 [ZMOD ((p - 1) * (q - 1) : ℕ)]) {s : Str} (hs : s ≠ []) (h0 : (0 : UInt8) ∉ s)
    (hlen : s.length + 1 < 2 ^ 31) (hlen' : (encryptString (p * q : ℕ) e s).length < 2 ^ 32) :
    (encryptText (p * q : ℕ) e s).bind (decryptText (p * q : ℕ) d) = some s ∧
      ∀ c ∈ s, (∀ i : ℕ, encryptProduct (p * q : ℕ) c i < 2 ^ 64) ∧
        ∀ i : ℕ, decryptProduct (p * q : ℕ) (encrypt (p * q : ℕ) e c) i < 2 ^ 64 := by
  have hN : 1 < p * q := by omega
  refine ⟨?_, fun c _ => ⟨encryptProduct_lt hN hhi c, decryptProduct_lt hN hhi e c⟩⟩
  have hmod : e.toNat * d.toNat ≡ 1 [MOD (p - 1) * (q - 1)] := by
    rw [← Int.natCast_modEq_iff]
    push_cast
    rw [Int.toNat_of_nonneg he.le, Int.toNat_of_nonneg hd.le]
    exact_mod_cast h
  have hfits : Splittable (encryptString (p * q : ℕ) e s) (byte '\\') :=
    ⟨hlen', by rwa [count_encryptString]⟩
  rw [encryptText, if_pos (by omega), Option.bind_some, decryptText, if_pos hfits]
  exact decryptString_of_bytes hN hhi
    (fun c _ => decrypt_encrypt hp hq hpq hlo hhi he hd hmod c) hs h0

/-- A key of two small primes: `17 * 19`, with `5 * 173 = 3 * 288 + 1`. -/
theorem decryptText_encryptText_key :
    (encryptText (17 * 19 : ℕ) 5 (lit "muse")).bind (decryptText (17 * 19 : ℕ) 173) = some (lit "muse") ∧
      ∀ c ∈ lit "muse", (∀ i : ℕ, encryptProduct (17 * 19 : ℕ) c i < 2 ^ 64) ∧
        ∀ i : ℕ, decryptProduct (17 * 19 : ℕ) (encrypt (17 * 19 : ℕ) 5 c) i < 2 ^ 64 :=
  decryptText_encryptText (by norm_num) (by norm_num) (by norm_num) (by norm_num) (by norm_num)
    (by norm_num) (by norm_num) (by decide) (by decide) (by decide) (by decide) (by decide)

/-- **A longer string is lost**: on `2^31` characters the index of `encrypt_string` overflows. -/
theorem not_decryptText_encryptText_long : ¬ ∀ (p q : ℕ) (e d : Int) (s : Str), p.Prime → q.Prime →
    p ≠ q → 255 < p * q → p * q < 2 ^ 31 → 0 < e → 0 < d → e * d ≡ 1 [ZMOD ((p - 1) * (q - 1) : ℕ)] →
    s ≠ [] → (0 : UInt8) ∉ s →
    (encryptText (p * q : ℕ) e s).bind (decryptText (p * q : ℕ) d) = some s := by
  intro h
  have hlong : ¬ (List.replicate (2 ^ 31) (byte 'a')).length < 2 ^ 31 := by
    rw [List.length_replicate]
    omega
  have hne : List.replicate (2 ^ 31) (byte 'a') ≠ [] := by
    rw [Ne, List.replicate_eq_nil_iff]
    norm_num
  have hnul : (0 : UInt8) ∉ List.replicate (2 ^ 31) (byte 'a') := fun hmem =>
    absurd (List.eq_of_mem_replicate hmem) (by decide)
  have hlost := h 17 19 5 173 _ (by norm_num) (by norm_num) (by norm_num) (by norm_num) (by norm_num)
    (by norm_num) (by norm_num) (by decide) hne hnul
  rw [encryptText, if_neg hlong, Option.bind_none] at hlost
  exact Option.some_ne_none _ hlost.symm

end MuseKv.Encrypt
