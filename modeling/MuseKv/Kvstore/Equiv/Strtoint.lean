import MuseKv.Kvstore.Loops
import MuseKv.Kvstore.Equiv.Text

/-!
# What `strtoint` parses

The loop of `strtoint` is Horner's rule up to the first character that is no digit (`loop_spec`), as
long as the value and the index stay below `2^31`; with a larger value (`loop_overflows`) or a larger
index (`index_overflows`) an operation on `int`s overflows.  A sign without digits is accepted as `0`.
**`parses_iff`**: these are all that is wrong with it.
-/

namespace MuseKv.Kvstore

open Loops

/-- The value of some digits behind a number. -/
def horner (r : Int) (ds : Str) : Int := ds.foldl (fun a c => 10 * a + digitVal c) r

@[simp]
theorem horner_nil (r : Int) : horner r [] = r := rfl

@[simp]
theorem horner_cons (r : Int) (c : UInt8) (ds : Str) :
    horner r (c :: ds) = horner (10 * r + digitVal c) ds := rfl

theorem le_horner {ds : Str} (hds : ∀ c ∈ ds, isDigit c = true) {r : Int} (hr : 0 ≤ r) :
    r ≤ horner r ds :=
  le_foldl_digits hds hr

/-! ### The loop -/

/-- **The loop is Horner's rule** while the digits stay below `2^31`, and nothing overflows. -/
theorem loop_spec (str : Str) {i : ℕ} {r : Int} (hr : 0 ≤ r)
    (hsmall : horner r (str.takeWhile isDigit) < 2 ^ 31)
    (hindex : i + (str.takeWhile isDigit).length < 2 ^ 31) :
    (∀ x ∈ loopResults str i r, 0 ≤ x ∧ x < 2 ^ 31) ∧
      ((∀ c ∈ str, isDigit c = true) → strtointLoop str r = some (horner r str)) ∧
      ((∃ c ∈ str, isDigit c = false) → strtointLoop str r = none) := by
  induction str generalizing i r with
  | nil => simp [loopResults, strtointLoop]
  | cons c str ih =>
    by_cases hc : isDigit c = true
    · have hdigit := digitVal_bounds hc
      rw [List.takeWhile_cons_of_pos hc, horner_cons] at hsmall
      rw [List.takeWhile_cons_of_pos hc, List.length_cons] at hindex
      have hle := le_horner (fun d hd => List.mem_takeWhile_imp (p := isDigit) (l := str) hd)
        (show 0 ≤ 10 * r + digitVal c by omega)
      have hmul : wrap32 (r * 10) = r * 10 := wrap32_of_bounds (by omega) (by omega)
      have hadd : wrap32 (r * 10 + digitVal c) = 10 * r + digitVal c := by
        rw [wrap32_of_bounds (by omega) (by omega), mul_comm]
      obtain ⟨hresults, hall, hnone⟩ := ih (i := i + 1) (by omega) hsmall (by omega)
      rw [loopResults, strtointLoop, if_pos hc, if_pos hc, hmul, hadd]
      refine ⟨?_, fun h => hall fun d hd => h d (List.mem_cons_of_mem _ hd), ?_⟩
      · intro x hx
        simp only [List.mem_cons] at hx
        rcases hx with rfl | rfl | rfl | hx
        · omega
        · omega
        · omega
        · exact hresults x hx
      · rintro ⟨d, hd, hdfalse⟩
        rcases List.mem_cons.mp hd with rfl | hd
        · exact absurd (hc.symm.trans hdfalse) (by decide)
        · exact hnone ⟨d, hd, hdfalse⟩
    · rw [loopResults, strtointLoop, if_neg hc, if_neg hc]
      exact ⟨fun x hx => absurd hx (by simp),
        fun h => absurd (h c (List.mem_cons_self ..)) hc, fun _ => rfl⟩

/-- **A larger value overflows** on the way. -/
theorem loop_overflows (str : Str) {i : ℕ} {r : Int} (hr : 0 ≤ r) (hr' : r < 2 ^ 31)
    (hlarge : 2 ^ 31 ≤ horner r (str.takeWhile isDigit)) : ∃ x ∈ loopResults str i r, 2 ^ 31 ≤ x := by
  induction str generalizing i r with
  | nil =>
    rw [List.takeWhile_nil, horner_nil] at hlarge
    omega
  | cons c str ih =>
    by_cases hc : isDigit c = true
    · have hdigit := digitVal_bounds hc
      rw [List.takeWhile_cons_of_pos hc, horner_cons] at hlarge
      rw [loopResults, if_pos hc]
      -- either the product overflows, or the sum, or a later digit is to blame
      by_cases hmul : 2 ^ 31 ≤ r * 10
      · exact ⟨r * 10, List.mem_cons_self .., hmul⟩
      have hwrap : wrap32 (r * 10) = r * 10 := wrap32_of_bounds (by omega) (by omega)
      rw [hwrap]
      by_cases hadd : 2 ^ 31 ≤ r * 10 + digitVal c
      · exact ⟨_, List.mem_cons_of_mem _ (List.mem_cons_self ..), hadd⟩
      · have hwrap' : wrap32 (r * 10 + digitVal c) = 10 * r + digitVal c := by
          rw [wrap32_of_bounds (by omega) (by omega), mul_comm]
        obtain ⟨x, hx, hlarge'⟩ := ih (i := i + 1) (by omega) (by omega) hlarge
        rw [hwrap']
        exact ⟨x, List.mem_cons_of_mem _ (List.mem_cons_of_mem _ (List.mem_cons_of_mem _ hx)), hlarge'⟩
    · rw [List.takeWhile_cons_of_neg hc, horner_nil] at hlarge
      omega

/-- **A larger index overflows**, whatever the digits are. -/
theorem index_overflows (str : Str) {i : ℕ} {r : Int} (hi : i < 2 ^ 31)
    (hlarge : 2 ^ 31 ≤ i + (str.takeWhile isDigit).length) : ∃ x ∈ loopResults str i r, 2 ^ 31 ≤ x := by
  induction str generalizing i r with
  | nil =>
    rw [List.takeWhile_nil, List.length_nil] at hlarge
    omega
  | cons c str ih =>
    by_cases hc : isDigit c = true
    · rw [List.takeWhile_cons_of_pos hc, List.length_cons] at hlarge
      rw [loopResults, if_pos hc]
      by_cases hnext : 2 ^ 31 ≤ i + 1
      · refine ⟨_, List.mem_cons_of_mem _ (List.mem_cons_of_mem _ (List.mem_cons_self ..)), ?_⟩
        exact_mod_cast hnext
      · obtain ⟨x, hx, hlarge'⟩ := ih (i := i + 1) (r := wrap32 (wrap32 (r * 10) + digitVal c))
          (by omega) (by omega)
        exact ⟨x, List.mem_cons_of_mem _ (List.mem_cons_of_mem _ (List.mem_cons_of_mem _ hx)), hlarge'⟩
    · rw [List.takeWhile_cons_of_neg hc, List.length_nil] at hlarge
      omega

/-- The loop with its index: a fault from `2^31` digits on. -/
theorem indexLoop_eq (str : Str) {i : ℕ} (r : Int) (hi : i < 2 ^ 31) :
    indexLoop str i r
      = if i + (str.takeWhile isDigit).length < 2 ^ 31 then some (strtointLoop str r) else none := by
  induction str generalizing i r with
  | nil => rw [indexLoop, strtointLoop, List.takeWhile_nil, List.length_nil, if_pos (by omega)]
  | cons c str ih =>
    rw [indexLoop, strtointLoop]
    by_cases hc : isDigit c = true
    · rw [if_pos hc, if_pos hc, List.takeWhile_cons_of_pos hc, List.length_cons]
      by_cases hnext : i + 1 < 2 ^ 31
      · rw [if_pos hnext, ih _ hnext, add_right_comm, ← add_assoc]
      · rw [if_neg hnext, if_neg (by omega)]
    · rw [if_neg hc, if_neg hc, List.takeWhile_cons_of_neg hc, List.length_nil, if_pos (by omega)]

theorem signLength_le (str : Str) : signLength str ≤ 1 := by
  rw [signLength]
  split_ifs
  · exact le_rfl
  · exact Nat.zero_le _

/-- The loop behind the sign. -/
theorem indexLoop_unsigned (str : Str) : indexLoop (unsigned str) (signLength str) 0
    = if Indexable str then some (strtointLoop (unsigned str) 0) else none :=
  indexLoop_eq (unsigned str) 0 ((signLength_le str).trans_lt (by norm_num))

/-- **`strtoint` with its index** is `readInt`. -/
theorem strtointIndexed_eq {str : Str} (hs : str ≠ []) : strtointIndexed str = readInt str := by
  obtain ⟨c, rest, rfl⟩ := List.exists_cons_of_ne_nil hs
  have hloop := indexLoop_unsigned (c :: rest)
  rw [strtointIndexed, readInt, strtoint]
  by_cases hc : c = byte '-'
  · have hlength : signLength (c :: rest) = 1 := if_pos (congrArg some hc)
    have hunsigned : unsigned (c :: rest) = rest := if_pos (congrArg some hc)
    rw [hlength, hunsigned] at hloop
    rw [if_pos hc, if_pos hc, hloop]
    split_ifs
    · rfl
    · rfl
  · have hlength : signLength (c :: rest) = 0 := if_neg (by simpa using hc)
    have hunsigned : unsigned (c :: rest) = c :: rest := if_neg (by simpa using hc)
    rw [hlength, hunsigned] at hloop
    rw [if_neg hc, if_neg hc, hloop]
    split_ifs
    · rfl
    · rfl

/-! ### What a text denotes -/

/-- A text of digits, with a minus sign in front perhaps, and the number that it denotes. -/
def Denotes (str : Str) (n : Int) : Prop :=
  ∃ ds : Str, ds ≠ [] ∧ (∀ c ∈ ds, isDigit c = true) ∧
    ((str = ds ∧ n = horner 0 ds) ∨ (str = byte '-' :: ds ∧ n = -horner 0 ds))

/-- The law of parsing: the texts of the numbers that are smaller than `2^31` in either direction are
accepted with their number, all others are refused, and nothing overflows. -/
structure Parses (str : Str) : Prop where
  accepts : ∀ n, strtointIndexed str = some (true, n) ↔ Denotes str n ∧ -2 ^ 31 < n ∧ n < 2 ^ 31
  refuses : (¬ ∃ n, Denotes str n ∧ -2 ^ 31 < n ∧ n < 2 ^ 31) →
    ∃ n, strtointIndexed str = some (false, n)
  noOverflow : ∀ x ∈ intResults str, -2 ^ 31 ≤ x ∧ x < 2 ^ 31

/-- The sign that is multiplied with, and what is behind it. -/
theorem exists_sign {str : Str} (hs : str ≠ []) : ∃ sgn : Int, (sgn = 1 ∨ sgn = -1) ∧
    strtoint str = some (strtointResult sgn (strtointLoop (unsigned str) 0)) ∧
    intResults str = loopResults (unsigned str) (signLength str) 0 ++
      (strtointLoop (unsigned str) 0).toList.map (fun res => sgn * res) ∧
    (∀ n, Denotes str n ↔ unsigned str ≠ [] ∧ (∀ c ∈ unsigned str, isDigit c = true) ∧
      n = sgn * horner 0 (unsigned str)) ∧
    (str = lit "-" ↔ unsigned str = []) := by
  obtain ⟨c, rest, rfl⟩ := List.exists_cons_of_ne_nil hs
  by_cases hc : c = byte '-'
  · subst hc
    have hunsigned : unsigned (byte '-' :: rest) = rest := if_pos rfl
    have hlength : signLength (byte '-' :: rest) = 1 := if_pos rfl
    rw [hunsigned, hlength]
    refine ⟨-1, Or.inr rfl, by rw [strtoint, if_pos rfl], by rw [intResults, if_pos rfl],
      fun n => ?_, ?_⟩
    · constructor
      · rintro ⟨ds, hne, hds, ⟨rfl, -⟩ | ⟨heq, rfl⟩⟩
        · exact absurd (hds _ (List.mem_cons_self ..)) (by decide)
        · obtain ⟨-, rfl⟩ := List.cons.inj heq
          exact ⟨hne, hds, by ring⟩
      · rintro ⟨hne, hds, rfl⟩
        exact ⟨rest, hne, hds, Or.inr ⟨rfl, by ring⟩⟩
    · rw [show lit "-" = [byte '-'] from rfl, List.cons.injEq, and_iff_right rfl]
  · have hunsigned : unsigned (c :: rest) = c :: rest := if_neg (by simpa using hc)
    have hlength : signLength (c :: rest) = 0 := if_neg (by simpa using hc)
    rw [hunsigned, hlength]
    refine ⟨1, Or.inl rfl, by rw [strtoint, if_neg hc], by rw [intResults, if_neg hc],
      fun n => ?_, ?_⟩
    · constructor
      · rintro ⟨ds, hne, hds, ⟨rfl, rfl⟩ | ⟨heq, -⟩⟩
        · exact ⟨hne, hds, (one_mul _).symm⟩
        · exact absurd (List.cons.inj heq).1 hc
      · rintro ⟨hne, hds, rfl⟩
        exact ⟨_, hne, hds, Or.inl ⟨rfl, one_mul _⟩⟩
    · refine iff_of_false (fun heq => ?_) (List.cons_ne_nil _ _)
      exact hc (List.cons.inj heq).1

/-- A text of digits behind a sign, or without one, is accepted when its number is small. -/
theorem parses_of_digits {str : Str} (hs : str ≠ []) (hne : unsigned str ≠ [])
    (hdigits : ∀ c ∈ unsigned str, isDigit c = true) (hsmall : horner 0 (leadingDigits str) < 2 ^ 31)
    (hindex : Indexable str) : Parses str := by
  obtain ⟨sgn, hsgn, hresult, hints, hdenotes, -⟩ := exists_sign hs
  obtain ⟨hresults, hall, -⟩ := loop_spec (unsigned str) le_rfl hsmall hindex
  have hvalue := hall hdigits
  have hnonneg := le_horner hdigits (le_refl (0 : Int))
  rw [leadingDigits, List.takeWhile_eq_self_iff.mpr hdigits] at hsmall
  have hprod : -2 ^ 31 < sgn * horner 0 (unsigned str) ∧ sgn * horner 0 (unsigned str) < 2 ^ 31 := by
    rcases hsgn with rfl | rfl
    · omega
    · omega
  have hstr : strtointIndexed str = some (true, sgn * horner 0 (unsigned str)) := by
    rw [strtointIndexed_eq hs, readInt, if_pos hindex, hresult, hvalue, strtointResult, wrap32_of_bounds hprod.1.le hprod.2]
  have hvalid : Denotes str (sgn * horner 0 (unsigned str)) := (hdenotes _).mpr ⟨hne, hdigits, rfl⟩
  refine ⟨fun n => ?_, fun h => absurd ⟨_, hvalid, hprod⟩ h, fun x hx => ?_⟩
  · rw [hstr, Option.some.injEq, Prod.mk.injEq, and_iff_right rfl]
    constructor
    · rintro rfl
      exact ⟨hvalid, hprod⟩
    · exact fun h => ((hdenotes n).mp h.1).2.2.symm
  · -- the results of the loop, and then the product with the sign
    rw [hints, hvalue, Option.toList_some, List.map_singleton] at hx
    rcases List.mem_append.mp hx with hx | hx
    · have hbounds := hresults x hx
      omega
    · rw [List.mem_singleton.mp hx]
      exact ⟨hprod.1.le, hprod.2⟩

/-- A text with another character is refused when the digits in front of it are a small number. -/
theorem parses_of_other {str : Str} (hs : str ≠ []) (hother : ∃ c ∈ unsigned str, isDigit c = false)
    (hsmall : horner 0 (leadingDigits str) < 2 ^ 31) (hindex : Indexable str) : Parses str := by
  obtain ⟨sgn, -, hresult, hints, hdenotes, -⟩ := exists_sign hs
  obtain ⟨hresults, -, hnone⟩ := loop_spec (unsigned str) le_rfl hsmall hindex
  have hnone := hnone hother
  have hstr : strtointIndexed str = some (false, 0) := by
    rw [strtointIndexed_eq hs, readInt, if_pos hindex, hresult, hnone]
    rfl
  refine ⟨fun n => ?_, fun _ => ⟨0, hstr⟩, fun x hx => ?_⟩
  · rw [hstr]
    refine iff_of_false (by simp) fun h => ?_
    obtain ⟨c, hc, hfalse⟩ := hother
    exact absurd (((hdenotes n).mp h.1).2.1 c hc) (by simp [hfalse])
  · rw [hints, hnone, Option.toList_none, List.map_nil, List.append_nil] at hx
    have hbounds := hresults x hx
    omega

/-- **`strtoint` follows the law** on a text if and only if it is more than a sign, and the digits at its
beginning are fewer than `2^31` with the sign, and denote a number below `2^31`. -/
theorem parses_iff {str : Str} (hs : str ≠ []) :
    Parses str ↔ str ≠ lit "-" ∧ horner 0 (leadingDigits str) < 2 ^ 31 ∧ Indexable str := by
  obtain ⟨sgn, hsgn, hresult, hints, hdenotes, hsign⟩ := exists_sign hs
  have hstart := signLength_le str
  rw [Ne, hsign]
  constructor
  · intro h
    have hindex : Indexable str := by
      by_contra hlong
      -- too many digits show as an overflow of the index
      obtain ⟨x, hx, hxlarge⟩ := index_overflows (i := signLength str) (r := 0) (unsigned str)
        (by omega) (not_lt.mp hlong)
      have hbound := (h.noOverflow x (hints ▸ List.mem_append_left _ hx)).2
      omega
    refine ⟨?_, ?_, hindex⟩
    · intro hnil
      rw [hnil] at hresult
      have hzero : strtointIndexed str = some (true, 0) := by
        rw [strtointIndexed_eq hs, readInt, if_pos hindex]
        rcases hsgn with rfl | rfl
        · exact hresult
        · exact hresult
      exact ((hdenotes 0).mp ((h.accepts 0).mp hzero).1).1 hnil
    · by_contra hlarge
      -- a leading number that is too large shows as an overflow of the loop
      obtain ⟨x, hx, hxlarge⟩ := loop_overflows (i := signLength str) (unsigned str) le_rfl (by norm_num)
        (not_lt.mp hlarge)
      have hbound := (h.noOverflow x (hints ▸ List.mem_append_left _ hx)).2
      omega
  · rintro ⟨hne, hsmall, hindex⟩
    -- the loop gets to the end if and only if everything behind the sign is a digit
    by_cases hdigits : ∀ c ∈ unsigned str, isDigit c = true
    · exact parses_of_digits hs hne hdigits hsmall hindex
    · refine parses_of_other hs ?_ hsmall hindex
      simpa using hdigits

/-- A text that is parsed. -/
theorem parses_number : Parses (lit "-42") := (parses_iff (by decide)).mpr (by decide)

/-- **A sign without digits is accepted.** -/
theorem not_parses_sign : strtointIndexed (lit "-") = some (true, 0) ∧
    ¬ ∀ str : Str, str ≠ [] → Parses str := by
  refine ⟨by decide, fun h => ?_⟩
  obtain ⟨⟨ds, hne, hds, hcase⟩, -⟩ := ((h (lit "-") (by decide)).accepts 0).mp (by decide)
  rcases hcase with ⟨rfl, -⟩ | ⟨heq, -⟩
  · exact absurd (hds (byte '-') (by decide)) (by decide)
  · exact hne (List.cons.inj heq).2.symm

end MuseKv.Kvstore
