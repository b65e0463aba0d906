import Mathlib.Data.List.Infix
import Mathlib.Data.List.TakeWhile
import Mathlib.Tactic.NormNum
import Mathlib.Tactic.Ring

/-!
# Byte strings and machine integers

A `std::string` is a list of bytes (`Str`), and string literals are written `lit "…"`.  The `int`s
of the source are integers that `wrap32` brings back into `[-2^31, 2^31)`.  This file holds the
conversions of the C++ library that the program relies on: `std::to_string` (`toStr`), `atoi`, and
the conversion of an `int` to `uint8_t`.
-/

namespace MuseKv

/-- A `std::string`. -/
abbrev Str := List UInt8

instance Str.lawfulBEq : LawfulBEq Str := inferInstanceAs (LawfulBEq (List UInt8))

/-- The byte of an ASCII character. -/
def byte (c : Char) : UInt8 := UInt8.ofNat c.toNat

/-- A string literal. -/
def lit (s : String) : Str := s.toList.map byte

/-- The separator byte of the session suffix, `char(8)`. -/
def backspace : UInt8 := 8

/-! ### Integers -/

/-- The value an `int` holds after an operation whose exact result is `x`. -/
def wrap32 (x : Int) : Int := x.bmod (2 ^ 32)

/-- The value an unsigned 64-bit integer holds after an operation whose exact result is `x`. -/
def wrapU64 (x : Int) : Nat := (x % 2 ^ 64).toNat

/-- The conversion of a `double` with the value of an integer to `int`.  It is undefined outside the range
of `int`, where the instruction of x86 leaves the smallest `int`. -/
def doubleToInt (x : Int) : Int := if -2 ^ 31 ≤ x ∧ x < 2 ^ 31 then x else -2 ^ 31

/-- The conversion of an `int` to `uint8_t`. -/
def toU8 (x : Int) : UInt8 := UInt8.ofNat (x % 256).toNat

/-- A `char` as an `int`: the type is signed. -/
def charToInt (c : UInt8) : Int := if c < 128 then c.toNat else (c.toNat : Int) - 256

/-! ### Decimal text -/

/-- `std::to_string` of an `int`. -/
def toStr : Int → Str
  | .ofNat n => (Nat.toDigits 10 n).map byte
  | .negSucc n => byte '-' :: (Nat.toDigits 10 (n + 1)).map byte

def isDigit (c : UInt8) : Bool := byte '0' ≤ c && c ≤ byte '9'

/-- `c - '0'`. -/
def digitVal (c : UInt8) : Int := c.toNat - 48

/-- The bytes `isspace` accepts. -/
def isSpace (c : UInt8) : Bool := c == 32 || (9 ≤ c && c ≤ 13)

/-- `atoi`: after blanks and an optional sign, the value of the longest run of digits.  `strtol`
stops at the bounds of `long`, and its result is cut down to an `int`. -/
def atoi (s : Str) : Int :=
  let s := s.dropWhile isSpace
  let neg := s.head? == some (byte '-')
  let s := if neg || s.head? == some (byte '+') then s.tail else s
  let n := (s.takeWhile isDigit).foldl (fun a c => 10 * a + digitVal c) 0
  wrap32 (max (-2 ^ 63) (min (2 ^ 63 - 1) (if neg then -n else n)))

/-- `s.find(t) != std::string::npos`. -/
def contains (s t : Str) : Bool := decide (t <:+: s)

/-- What a `char*` shows of a buffer: the bytes before the first NUL. -/
def cString (s : Str) : Str := s.takeWhile (· ≠ 0)

/-! ### The conversions on their common range -/

theorem wrap32_of_bounds {x : Int} (h₁ : -2 ^ 31 ≤ x) (h₂ : x < 2 ^ 31) : wrap32 x = x := by
  unfold wrap32
  rw [Int.bmod_eq_of_le] <;> omega

theorem wrap32_bounds (x : Int) : -2 ^ 31 ≤ wrap32 x ∧ wrap32 x < 2 ^ 31 := by
  unfold wrap32
  have h₁ := Int.le_bmod (x := x) (m := 2 ^ 32) (by norm_num)
  have h₂ := Int.bmod_lt (x := x) (m := 2 ^ 32) (by norm_num)
  constructor
  · omega
  · omega

theorem wrap32_le_self {x : Int} (h : -2 ^ 31 ≤ x) : wrap32 x ≤ x := by
  rw [wrap32, Int.bmod_def]
  split_ifs
  · omega
  · omega

theorem wrap32_natCast {n : ℕ} (h : n < 2 ^ 31) : wrap32 n = n :=
  wrap32_of_bounds (by omega) (by exact_mod_cast h)

/-- An `int` counts to `2^31 - 1`. -/
theorem wrap32_natCast_eq_iff (n : ℕ) : wrap32 n = n ↔ n < 2 ^ 31 := by
  refine ⟨fun h => ?_, wrap32_natCast⟩
  have hlt := (wrap32_bounds n).2
  rw [h] at hlt
  exact_mod_cast hlt

/-- Wrapping in between does not change a sum. -/
theorem wrap32_add_left (x y : Int) : wrap32 (wrap32 x + y) = wrap32 (x + y) := Int.bmod_add_bmod

theorem wrap32_add_right (x y : Int) : wrap32 (x + wrap32 y) = wrap32 (x + y) := by
  rw [add_comm, wrap32_add_left, add_comm]

/-- A sum that wraps at every step. -/
theorem foldl_wrap32 {ι : Type} (f : ι → Int) (l : List ι) (a : Int) :
    l.foldl (fun s i => wrap32 (s + wrap32 (f i))) (wrap32 a) = wrap32 (a + (l.map f).sum) := by
  induction l generalizing a with
  | nil => rw [List.foldl_nil, List.map_nil, List.sum_nil, add_zero]
  | cons i l ih =>
    rw [List.foldl_cons, wrap32_add_right, wrap32_add_left, ih, List.map_cons, List.sum_cons,
      add_assoc]

@[simp]
theorem toU8_natCast_toNat (a : UInt8) : toU8 (a.toNat : Int) = a := by
  have h : ((a.toNat : Int) % 256).toNat = a.toNat := by
    have := a.toNat_lt
    omega
  rw [toU8, h, UInt8.ofNat_toNat]

theorem toNat_toU8 {x : Int} (h₀ : 0 ≤ x) (h : x < 256) : ((toU8 x).toNat : Int) = x := by
  rw [toU8, UInt8.toNat_ofNat']
  omega

/-! ### The digits of a number -/

theorem isDigit_byte {c : Char} (h : c.isDigit = true) :
    isDigit (byte c) = true ∧ digitVal (byte c) = (c.toNat - '0'.toNat : ℕ) := by
  simp only [Char.isDigit, Bool.and_eq_true, decide_eq_true_eq] at h
  have h48 : 48 ≤ c.toNat := h.1
  have h57 : c.toNat ≤ 57 := h.2
  have hb : (byte c).toNat = c.toNat := by
    rw [byte, UInt8.toNat_ofNat']
    omega
  refine ⟨?_, ?_⟩
  · simp only [isDigit, Bool.and_eq_true, decide_eq_true_eq, UInt8.le_iff_toNat_le, hb]
    exact ⟨h48, h57⟩
  · rw [digitVal, hb]
    simp
    omega

theorem digitVal_bounds {c : UInt8} (h : isDigit c = true) : 0 ≤ digitVal c ∧ digitVal c ≤ 9 := by
  have h48 : (byte '0').toNat = 48 := rfl
  have h57 : (byte '9').toNat = 57 := rfl
  simp only [isDigit, Bool.and_eq_true, decide_eq_true_eq, UInt8.le_iff_toNat_le] at h
  rw [digitVal]
  omega

/-- More digits make a number no smaller. -/
theorem le_foldl_digits {ds : Str} (hds : ∀ c ∈ ds, isDigit c = true) {r : Int} (hr : 0 ≤ r) :
    r ≤ ds.foldl (fun a c => 10 * a + digitVal c) r := by
  induction ds generalizing r with
  | nil => exact le_rfl
  | cons c ds ih =>
    have hc := (digitVal_bounds (hds c (List.mem_cons_self ..))).1
    have hle := ih (fun d hd => hds d (List.mem_cons_of_mem _ hd)) (r := 10 * r + digitVal c) (by omega)
    rw [List.foldl_cons]
    omega

/-- The bytes of a printed natural number are digits. -/
theorem isDigit_of_mem_digits {n : ℕ} {c : UInt8} (hc : c ∈ (Nat.toDigits 10 n).map byte) :
    isDigit c = true := by
  obtain ⟨d, hd, rfl⟩ := List.mem_map.mp hc
  exact (isDigit_byte (Nat.isDigit_of_mem_toDigits (by norm_num) (by norm_num) hd)).1

/-- An `int` has ten digits at most. -/
theorem length_toStr_natCast_le {n : ℕ} (h : n < 2 ^ 31) : (toStr n).length ≤ 10 := by
  have hdigits := (Nat.length_toDigits_le_iff (n := n) (k := 10) (by norm_num) (by norm_num)).mpr
    (h.trans (by norm_num : 2 ^ 31 < 10 ^ 10))
  exact (List.length_map _).trans_le hdigits

theorem toStr_ne_nil (x : Int) : toStr x ≠ [] := by
  cases x with
  | ofNat n => simp [toStr, Nat.toDigits_ne_nil]
  | negSucc n => simp [toStr]

/-- A printed number consists of digits, after a sign perhaps. -/
theorem mem_toStr {x : Int} {c : UInt8} (hc : c ∈ toStr x) : isDigit c = true ∨ c = byte '-' := by
  cases x with
  | ofNat n => exact Or.inl (isDigit_of_mem_digits hc)
  | negSucc n =>
    rw [toStr, List.mem_cons] at hc
    rcases hc with rfl | hc
    · exact Or.inr rfl
    · exact Or.inl (isDigit_of_mem_digits hc)

/-- A byte that is neither a digit nor the sign does not occur in a printed number. -/
theorem not_mem_toStr {c : UInt8} (hd : isDigit c = false) (hm : c ≠ byte '-') (x : Int) :
    c ∉ toStr x := by
  intro hc
  rcases mem_toStr hc with h | h
  · rw [hd] at h
    exact Bool.false_ne_true h
  · exact hm h

/-- Horner's rule over the printed digits gives the number back. -/
theorem foldl_digits (n : ℕ) :
    ((Nat.toDigits 10 n).map byte).foldl (fun a c => 10 * a + digitVal c) 0 = (n : Int) := by
  have hfold : ∀ (ds : List Char) (a : ℕ), (∀ c ∈ ds, c.isDigit = true) →
      (ds.map byte).foldl (fun a c => 10 * a + digitVal c) (a : Int)
        = (Nat.ofDigitChars 10 ds a : ℕ) := by
    intro ds
    induction ds with
    | nil => simp
    | cons c ds ih =>
      intro a h
      have hc := (isDigit_byte (h c (List.mem_cons_self ..))).2
      rw [List.map_cons, List.foldl_cons, hc, Nat.ofDigitChars_cons,
        ← ih _ fun d hd => h d (List.mem_cons_of_mem _ hd)]
      push_cast
      rfl
  have h := hfold (Nat.toDigits 10 n) 0 fun c hc =>
    Nat.isDigit_of_mem_toDigits (by norm_num) (by norm_num) hc
  rwa [Nat.ofDigitChars_ten_toDigits] at h

/-- Different numbers are printed differently. -/
theorem toStr_natCast_injective : Function.Injective fun n : ℕ => toStr n := by
  intro m n h
  have hval : ∀ n : ℕ, (toStr n).foldl (fun a c => 10 * a + digitVal c) 0 = (n : Int) := foldl_digits
  have hm := hval m
  rw [show toStr m = toStr n from h, hval n] at hm
  exact (Int.natCast_inj.mp hm).symm

/-- Texts without a common byte. -/
theorem not_mem_of_all {s t : Str} (h : (s.all fun c => !t.contains c) = true) :
    ∀ c ∈ s, c ∉ t := by
  intro c hc hct
  have hno := List.all_eq_true.mp h c hc
  rw [List.contains_iff_mem.mpr hct] at hno
  exact Bool.false_ne_true hno

/-! ### `atoi` reads back what `std::to_string` prints -/

theorem isSpace_of_isDigit {c : UInt8} (h : isDigit c = true) :
    isSpace c = false ∧ c ≠ byte '-' ∧ c ≠ byte '+' := by
  have hb : (byte '0').toNat = 48 ∧ (byte '9').toNat = 57 ∧ (byte '-').toNat = 45 ∧
      (byte '+').toNat = 43 := by decide
  simp only [isDigit, Bool.and_eq_true, decide_eq_true_eq, UInt8.le_iff_toNat_le, hb] at h
  refine ⟨?_, ?_, ?_⟩
  · simp only [isSpace, Bool.or_eq_false_iff, beq_eq_false_iff_ne, ne_eq, ← UInt8.toNat_inj,
      Bool.and_eq_false_iff, decide_eq_false_iff_not, UInt8.le_iff_toNat_le]
    have h32 : (32 : UInt8).toNat = 32 ∧ (9 : UInt8).toNat = 9 ∧ (13 : UInt8).toNat = 13 := by
      decide
    omega
  · rw [ne_eq, ← UInt8.toNat_inj]
    omega
  · rw [ne_eq, ← UInt8.toNat_inj]
    omega

/-- The first digit of a printed natural number. -/
theorem exists_digits (n : ℕ) :
    ∃ c ds, (Nat.toDigits 10 n).map byte = c :: ds ∧ isDigit c = true := by
  obtain ⟨c, ds, h⟩ := List.exists_cons_of_ne_nil (toStr_ne_nil (.ofNat n))
  exact ⟨c, ds, h, isDigit_of_mem_digits (n := n) (by rw [toStr] at h; simp [h])⟩

theorem takeWhile_digits (n : ℕ) {t : Str} (ht : ∀ c ∈ t.head?, isDigit c = false) :
    (((Nat.toDigits 10 n).map byte) ++ t).takeWhile isDigit = (Nat.toDigits 10 n).map byte := by
  rw [List.takeWhile_append_of_pos fun c hc => isDigit_of_mem_digits hc]
  cases t with
  | nil => simp
  | cons c t => simp [ht c rfl]

/-- **`atoi` reads back what `std::to_string` printed**, behind blanks and in front of anything that
is no digit. -/
theorem atoi_toStr {x : Int} (h₁ : -2 ^ 31 ≤ x) (h₂ : x < 2 ^ 31) {b t : Str}
    (hb : ∀ c ∈ b, isSpace c = true) (ht : ∀ c ∈ t.head?, isDigit c = false) :
    atoi (b ++ toStr x ++ t) = x := by
  have hdrop : ∀ (c : UInt8) (s : Str), isSpace c = false →
      (b ++ c :: s).dropWhile isSpace = c :: s := by
    intro c s hc
    rw [List.dropWhile_append_of_pos hb, List.dropWhile_cons, if_neg (by simp [hc])]
  cases x with
  | ofNat n =>
    obtain ⟨c, ds, hds, hc⟩ := exists_digits n
    obtain ⟨hsp, hm, hp⟩ := isSpace_of_isDigit hc
    have hneg : ((c :: (ds ++ t)).head? == some (byte '-')) = false := by simp [hm]
    have hpos : ((c :: (ds ++ t)).head? == some (byte '+')) = false := by simp [hp]
    have hn := takeWhile_digits n ht
    have hf := foldl_digits n
    rw [hds, List.cons_append] at hn
    rw [hds] at hf
    rw [atoi, toStr, hds, List.append_assoc, List.cons_append, hdrop c _ hsp]
    simp only [hneg, hpos, Bool.or_self, Bool.false_eq_true, ↓reduceIte, hn, hf]
    rw [Int.ofNat_eq_natCast] at h₂ ⊢
    rw [min_eq_right (by omega), max_eq_right (by omega)]
    exact wrap32_of_bounds (by omega) h₂
  | negSucc n =>
    have hn := takeWhile_digits (n + 1) ht
    have hf := foldl_digits (n + 1)
    rw [atoi, toStr, List.append_assoc, List.cons_append, hdrop (byte '-') _ (by decide)]
    simp only [List.head?_cons, beq_self_eq_true, Bool.true_or, ↓reduceIte, List.tail_cons, hn, hf]
    rw [min_eq_right (by omega), max_eq_right (by omega)]
    rw [Int.negSucc_eq] at h₁ h₂ ⊢
    push_cast
    exact wrap32_of_bounds (by omega) (by omega)

/-- The case of a number with nothing around it. -/
theorem atoi_toStr_self {x : Int} (h₁ : -2 ^ 31 ≤ x) (h₂ : x < 2 ^ 31) : atoi (toStr x) = x := by
  have h := atoi_toStr h₁ h₂ (b := []) (t := []) (by simp) (by simp)
  rwa [List.nil_append, List.append_nil] at h

/-- **`atoi` looks no further** than a byte that is no blank, no sign and no digit. -/
theorem atoi_append {c : UInt8} (hspace : isSpace c = false) (hdigit : isDigit c = false)
    (hminus : c ≠ byte '-') (hplus : c ≠ byte '+') (s t : Str) : atoi (s ++ c :: t) = atoi s := by
  have hdrop : (s ++ c :: t).dropWhile isSpace = s.dropWhile isSpace ++ c :: t := by
    rw [List.dropWhile_append]
    split_ifs with hnil
    · rw [List.isEmpty_iff.mp hnil, List.dropWhile_cons_of_neg (by simp [hspace]), List.nil_append]
    · rfl
  -- neither the blanks nor the digits go past the byte
  have htake : ∀ s : Str, (s ++ c :: t).takeWhile isDigit = s.takeWhile isDigit := by
    intro s
    rw [List.takeWhile_append]
    split_ifs with hall
    · rw [List.takeWhile_cons_of_neg (by simp [hdigit]), List.append_nil,
        (List.takeWhile_prefix _).eq_of_length hall]
    · rfl
  rw [atoi, atoi, hdrop]
  cases s.dropWhile isSpace with
  | nil =>
    have hnil := htake []
    rw [List.nil_append] at hnil
    simp [hminus, hplus, hnil]
  | cons d s =>
    have hsign : ∀ b : Bool, (if b then s ++ c :: t else d :: (s ++ c :: t)).takeWhile isDigit
        = (if b then s else d :: s).takeWhile isDigit := by
      intro b
      cases b with
      | true => exact htake s
      | false => exact htake (d :: s)
    rw [List.cons_append]
    simp only [List.tail_cons, hsign]
    rfl

/-! ### NUL bytes -/

theorem cString_of_not_mem {s : Str} (h : (0 : UInt8) ∉ s) : cString s = s := by
  rw [cString, List.takeWhile_eq_self_iff]
  intro c hc
  simpa using fun h0 : c = 0 => h (h0 ▸ hc)

theorem not_mem_cString (s : Str) : (0 : UInt8) ∉ cString s := fun h => by
  simpa using List.mem_takeWhile_imp h

theorem cString_append {s : Str} (hs : (0 : UInt8) ∉ s) (t : Str) :
    cString (s ++ t) = s ++ cString t := by
  rw [cString, List.takeWhile_append_of_pos, cString]
  intro c hc
  simpa using fun h0 : c = 0 => hs (h0 ▸ hc)

end MuseKv
