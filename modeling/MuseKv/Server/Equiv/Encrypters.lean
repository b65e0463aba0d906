import MuseKv.Server.Equiv.Log

/-!
# The two encrypters

`log_append` has the loop of `encrypt` once more, on a `char` that is signed, where `encrypt` is handed
a `uint8_t`.  A byte from `128` on stands for a negative number there, and is written as another number
(`number_ne`).  So **`line_eq_iff`**: the two agree on the texts of ASCII bytes, and on no other.
-/

namespace MuseKv.LogAppend

open General Kvstore Encrypt

/-- The numbers of the bytes from `128` on, if they were those of `encrypt`.  Here `k` is the byte from
`256` downwards. -/
theorem encrypt_high_ne : ∀ k < 129, 0 < k →
    (256 - k) ^ 28969 % 1483513 ≠ 0 ∧
      ((1483512 - k) * ((256 - k) ^ 28969 % 1483513) + 2 ^ 64) % 1483513 ≠
        (1483512 - k + 2 ^ 64) * (1483513 - k) ^ 28969 % 1483513 := by
  decide +kernel

/-- **A byte from `128` on is encrypted as another number.** -/
theorem number_ne {c : UInt8} (hc : ¬ c < 128) : (number c : Int) ≠ encrypt modulus exponent c := by
  have hlt := c.toNat_lt
  have h128 : (128 : UInt8).toNat = 128 := rfl
  have hge : 128 ≤ c.toNat := by
    rw [UInt8.lt_iff_toNat_lt] at hc
    omega
  obtain ⟨k, hk⟩ : ∃ k, c.toNat = 256 - k ∧ 0 < k ∧ k < 129 := ⟨256 - c.toNat, by omega⟩
  obtain ⟨hck, hk₀, hk₁⟩ := hk
  -- the signed character, in a word, and the unsigned one
  have hfactor : wrapU64 (charToInt c) = 2 ^ 64 - k := by
    rw [charToInt, if_neg hc, wrapU64, hck]
    omega
  have hencrypt : encrypt modulus exponent c = ((256 - k) ^ 28969 % 1483513 : ℕ) := by
    have h := encrypt_eq (N := 1483513) (by norm_num) (by norm_num) exponent c
    rwa [hck, show exponent.toNat = 28969 from rfl] at h
  obtain ⟨hzero, hne⟩ := encrypt_high_ne k hk₁ hk₀
  rw [hencrypt, number, hfactor]
  intro heq
  have hnumber : powMod (2 ^ 64) 1483513 (2 ^ 64 - k) 28969 = (256 - k) ^ 28969 % 1483513 := by
    exact_mod_cast heq
  rcases powMod_sub (W := 2 ^ 64) (N := 1483513) (k := k) (j := 1483512 - k) (by omega) hk₀ (by omega)
    28969 with h | h
  · exact hzero (hnumber.symm.trans h)
  · rw [hnumber, show 1483512 - k + 1 = 1483513 - k by omega] at h
    exact hne h

variable {a : LogAppend}

/-- A number that is written is one of an `int`. -/
theorem number_bounds (c : UInt8) : -2 ^ 31 ≤ (number c : Int) ∧ (number c : Int) < 2 ^ 31 := by
  have hlt : number c < 1483513 := powMod_lt (by norm_num) _ _
  omega

/-- The texts of the numbers tell the numbers apart. -/
theorem line_eq_encryptString_iff :
    a.line = encryptString modulus exponent a.text ↔
      ∀ c ∈ a.text, (number c : Int) = encrypt modulus exponent c := by
  constructor
  · intro h c hc
    have hsplit := congrArg (fun line => (split line (byte '\\')).dropLast) h
    rw [line, split_numbers, split_encryptString] at hsplit
    have htext := List.map_inj_left.mp hsplit c hc
    have hencrypt : -2 ^ 31 ≤ encrypt modulus exponent c ∧ encrypt modulus exponent c < 2 ^ 31 :=
      wrap32_bounds _
    rw [← atoi_toStr_self (number_bounds c).1 (number_bounds c).2, htext,
      atoi_toStr_self hencrypt.1 hencrypt.2]
  · intro h
    rw [line, encryptString]
    exact List.flatMap_congr fun c hc => by rw [h c hc]

/-- What `log_append` puts behind the text is ASCII. -/
theorem isAscii_suffix (a : LogAppend) : IsAscii (lit " " ++ backspace :: lit " " ++ toStr a.auth) := by
  have hblank : IsAscii (lit " " ++ backspace :: lit " ") := by decide
  intro c hc
  rcases List.mem_append.mp hc with hc | hc
  · exact hblank c hc
  · exact isAscii_toStr _ c hc

/-- **`log_append` writes what `encrypt_string` gives**, which decrypts to its text, if and only if the
text it is handed has no byte from `128` on. -/
theorem line_eq_iff (h0 : (0 : UInt8) ∉ a.com) :
    (a.line = encryptString modulus exponent a.text ∧
        ∀ d, 0 < d → 28969 * d % (1020 * 1452) = 1 → decryptString modulus d a.line = some a.text) ↔
      ∀ c ∈ a.com, c < 128 := by
  constructor
  · rintro ⟨hline, -⟩ c hc
    by_contra hhigh
    exact number_ne hhigh (line_eq_encryptString_iff.mp hline c (List.mem_append_left _ hc))
  · intro hcom
    have htext : ∀ c ∈ a.text, c ≠ 0 ∧ c < 128 := by
      intro c hc
      rcases List.mem_append.mp hc with hc | hc
      · exact ⟨fun hzero => h0 (hzero ▸ hc), hcom c hc⟩
      · exact isAscii_suffix a c hc
    have hline : a.line = encryptString modulus exponent a.text :=
      line_eq_encryptString_iff.mpr fun c hc => number_eq (htext c hc).2
    refine ⟨hline, fun d hd h => ?_⟩
    have hne : a.text ≠ [] := by
      rw [text]
      simp [lit]
    rw [hline]
    exact decryptString_of_bytes (N := 1483513) (by norm_num) (by norm_num)
      (fun c _ => decrypt_encrypt_modulus hd h c) hne fun hzero => (htext 0 hzero).1 rfl

/-- An ASCII command of a session of authority `5`. -/
theorem line_eq_make : (LogAppend.mk 5 (lit "make k v")).line =
    encryptString modulus exponent (LogAppend.mk 5 (lit "make k v")).text ∧
      ∀ d, 0 < d → 28969 * d % (1020 * 1452) = 1 →
        decryptString modulus d (LogAppend.mk 5 (lit "make k v")).line =
          some (LogAppend.mk 5 (lit "make k v")).text := by
  have hcom : (lit "make k v").all (fun c => decide (c < 128)) = true := by decide
  exact (line_eq_iff (by decide)).mpr fun c hc => of_decide_eq_true (List.all_eq_true.mp hcom c hc)

/-- **An umlaut is not written as `encrypt_string` writes it.** -/
theorem not_line_eq_umlaut : ¬ ∀ a : LogAppend, (0 : UInt8) ∉ a.com →
    a.line = encryptString modulus exponent a.text ∧
      ∀ d, 0 < d → 28969 * d % (1020 * 1452) = 1 → decryptString modulus d a.line = some a.text := by
  intro h
  have hline := (h ⟨0, lit "make k " ++ [195, 182]⟩ (by decide)).1
  exact number_ne (by decide) (line_eq_encryptString_iff.mp hline 195 (by decide))

end MuseKv.LogAppend
