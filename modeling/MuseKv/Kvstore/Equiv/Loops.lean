import MuseKv.Kvstore.Loops
import MuseKv.Kvstore.Equiv.Text

/-!
# What the loops compute

Below `2^31` characters the three loops of `trim` drop the blanks at the two ends and all but the last
blank of a run (`trimLoop_eq`), whatever stands in front of the string.  The two loops of `split` agree
on the number of the pieces, so every cell is written, and no other (`splitLoop_eq`), as long as the
number is an `int`.

* **`tokenizes`**: `trim` is idempotent, and a line that is trimmed splits into its maximal runs.
* **`split_merge_inverse`**: `split` and `merge` undo each other.
-/

namespace MuseKv.Kvstore.Loops

open General

/-! ### `trim` -/

section Trim

variable {before : UInt8} {str : Str}

theorem charAt_of_lt {i : ℕ} (h : i < str.length) : charAt before str i = str[i] := by
  rw [charAt, if_neg (by omega), Int.toNat_natCast, List.getD_eq_getElem?_getD,
    List.getElem?_eq_getElem h, Option.getD_some]

theorem eq_blank_iff {c : UInt8} : c = byte ' ' ↔ isBlank c = true := by
  simp [isBlank]

/-- The first loop stops at the first character that is no blank. -/
theorem drop_skipLoop (before : UInt8) (str : Str) (i : ℕ) (hlen : str.length < 2 ^ 31) :
    ∃ j, skipLoop before str i = some j ∧ str.drop j = (str.drop i).dropWhile isBlank := by
  fun_induction skipLoop before str i with
  | case1 i h hint ih =>
    obtain ⟨hc, hlt⟩ := h
    rw [charAt_of_lt hlt, eq_blank_iff] at hc
    obtain ⟨j, hj, hdrop⟩ := ih
    refine ⟨j, hj, ?_⟩
    rw [hdrop, List.drop_eq_getElem_cons hlt, List.dropWhile_cons_of_pos hc]
  | case2 i h hint => omega
  | case3 i h =>
    refine ⟨i, rfl, ?_⟩
    rcases Nat.lt_or_ge i str.length with hlt | hge
    · rw [charAt_of_lt hlt, eq_blank_iff] at h
      have hc : ¬ isBlank str[i] = true := fun hc => h ⟨hc, hlt⟩
      rw [List.drop_eq_getElem_cons hlt, List.dropWhile_cons_of_neg hc]
    · rw [List.drop_eq_nil_of_le hge, List.dropWhile_nil]

/-- The second loop stops at the last character that is no blank, or in front of the string, whatever it
reads there. -/
theorem take_backLoop (before : UInt8) (str : Str) (i : Int) (h₀ : -1 ≤ i) (h₁ : i < str.length) :
    str.take (backLoop before str i + 1).toNat = (str.take (i + 1).toNat).rdropWhile isBlank := by
  fun_induction backLoop before str i with
  | case1 i h ih =>
    obtain ⟨hc, hi⟩ := h
    obtain ⟨j, rfl⟩ := Int.eq_ofNat_of_zero_le hi
    have hlt : j < str.length := by exact_mod_cast h₁
    rw [charAt_of_lt hlt, eq_blank_iff] at hc
    have htake : str.take ((j : Int) + 1).toNat = str.take j ++ [str[j]] := by
      rw [show ((j : Int) + 1).toNat = j + 1 by omega, List.take_succ_eq_append_getElem hlt]
    rw [ih (by omega) (by omega), htake, List.rdropWhile_concat_pos isBlank _ _ hc]
    congr 2
    omega
  | case2 i h =>
    rcases h₀.eq_or_lt with rfl | hi
    · simp
    · obtain ⟨j, rfl⟩ := Int.eq_ofNat_of_zero_le (show 0 ≤ i by omega)
      have hlt : j < str.length := by exact_mod_cast h₁
      rw [charAt_of_lt hlt, eq_blank_iff] at h
      have hc : ¬ isBlank str[j] = true := fun hc => h ⟨hc, by omega⟩
      have htake : str.take ((j : Int) + 1).toNat = str.take j ++ [str[j]] := by
        rw [show ((j : Int) + 1).toNat = j + 1 by omega, List.take_succ_eq_append_getElem hlt]
      rw [htake, List.rdropWhile_concat_neg isBlank _ _ hc]

/-- The second loop leaves an index within the string, or just in front of it. -/
theorem backLoop_bounds (before : UInt8) (str : Str) (i : Int) (h₀ : -1 ≤ i) :
    -1 ≤ backLoop before str i ∧ backLoop before str i ≤ i := by
  fun_induction backLoop before str i with
  | case1 i h ih =>
    have hih := ih (by omega)
    omega
  | case2 i h => omega

/-- The third loop squeezes what is behind its index. -/
theorem squeezeLoop_eq (before : UInt8) (str : Str) (i : ℕ) (hi : i ≤ str.length)
    (hlen : str.length < 2 ^ 31) :
    squeezeLoop before str i = str.take i ++ squeeze isBlank (str.drop i) := by
  fun_induction squeezeLoop before str i with
  | case1 str i h hblank ih =>
    -- a blank with a blank behind it goes, and the index stays
    have h₁ : i + 1 < str.length := lt_length_of_lt_wrap32 h
    have h₀ : i < str.length := by omega
    have hback : ((i : Int) - 1 + 1).toNat = i := by omega
    obtain ⟨hc, hd⟩ := hblank
    rw [charAt_of_lt h₀, eq_blank_iff] at hc
    rw [show ((i : Int) + 1) = ((i + 1 : ℕ) : Int) by push_cast; rfl, charAt_of_lt h₁,
      eq_blank_iff] at hd
    rw [hback] at ih
    rw [hback, ih (by rw [List.length_eraseIdx_of_lt h₀]; omega)
        (by rw [List.length_eraseIdx_of_lt h₀]; omega), List.eraseIdx_eq_take_drop_succ,
      List.take_append_of_le_length (by rw [List.length_take]; omega), List.take_take, min_self,
      List.drop_append_of_le_length (by rw [List.length_take]; omega), List.drop_take_self,
      List.nil_append, List.drop_eq_getElem_cons h₀, List.drop_eq_getElem_cons h₁, squeeze, hc, hd,
      Bool.and_self, if_pos rfl]
  | case2 str i h hblank ih =>
    have h₁ : i + 1 < str.length := lt_length_of_lt_wrap32 h
    have h₀ : i < str.length := by omega
    rw [show ((i : Int) + 1) = ((i + 1 : ℕ) : Int) by push_cast; rfl, charAt_of_lt h₀,
      charAt_of_lt h₁, eq_blank_iff, eq_blank_iff] at hblank
    rw [ih (by omega) hlen, List.take_succ_eq_append_getElem h₀, List.append_assoc, List.singleton_append]
    conv_rhs => rw [List.drop_eq_getElem_cons h₀, List.drop_eq_getElem_cons h₁, squeeze,
      if_neg (by simpa using hblank), ← List.drop_eq_getElem_cons h₁]
  | case3 str i h =>
    rw [wrap32_of_bounds (by omega) (by omega)] at h
    have hshort : (str.drop i).length ≤ 1 := by
      rw [List.length_drop]
      omega
    cases hdrop : str.drop i with
    | nil => rw [squeeze, List.append_nil, List.take_of_length_le (List.drop_eq_nil_iff.mp hdrop)]
    | cons c rest =>
      rw [hdrop, List.length_cons] at hshort
      have hrest : rest = [] := List.length_eq_zero_iff.mp (by omega)
      rw [hrest, squeeze, ← hrest, ← hdrop, List.take_append_drop]

/-- The blanks at the end are erased. -/
theorem eraseBehind_backLoop (before : UInt8) (hlen : str.length < 2 ^ 31) :
    eraseBehind str (backLoop before str (wrap32 ((str.length : Int) - 1)))
      = some (str.rdropWhile isBlank) := by
  have hbounds := backLoop_bounds before str ((str.length : Int) - 1) (by omega)
  have htake := take_backLoop before str ((str.length : Int) - 1) (by omega) (by omega)
  rw [sub_add_cancel, Int.toNat_natCast, List.take_length] at htake
  rw [wrap32_of_bounds (by omega) (by omega), eraseBehind, if_pos (by omega), htake]

/-- **The loops of `trim`** compute `trim`. -/
theorem trimLoop_eq (before : UInt8) (hlen : str.length < 2 ^ 31) :
    trimLoop before str = some (trim str) := by
  rw [trimLoop, trim]
  split_ifs with hnil
  · rw [hnil]
    rfl
  · obtain ⟨i, hi, hskip⟩ := drop_skipLoop before str 0 hlen
    rw [List.drop_zero] at hskip
    have hshort : (str.dropWhile isBlank).length < 2 ^ 31 :=
      (List.dropWhile_suffix isBlank).length_le.trans_lt hlen
    have hshort' : ((str.dropWhile isBlank).rdropWhile isBlank).length < 2 ^ 31 :=
      (List.rdropWhile_prefix isBlank _).length_le.trans_lt hshort
    rw [hi, Option.bind_some]
    dsimp only
    rw [hskip, eraseBehind_backLoop before hshort, Option.map_some,
      squeezeLoop_eq before _ 0 (Nat.zero_le _) hshort', List.take_zero, List.drop_zero, List.nil_append]

/-- A trimmed string begins with no blank, so it has fewer blanks than characters. -/
theorem splittable_trim (hlen : str.length < 2 ^ 31) : Splittable (trim str) (byte ' ') := by
  have hshort := (trim_sublist str).length_le.trans_lt hlen
  have hhead := (trim_clean str).1
  refine ⟨by omega, ?_⟩
  cases htrim : trim str with
  | nil => exact (by norm_num : 0 + 1 < 2 ^ 31)
  | cons c rest =>
    rw [htrim] at hhead hshort
    rw [List.length_cons] at hshort
    have hc : c ≠ byte ' ' := by
      rw [Ne, eq_blank_iff]
      exact fun h => Bool.false_ne_true ((hhead c rfl).symm.trans h)
    have hle := List.count_le_length (a := byte ' ') (l := rest)
    rw [List.count_cons_of_ne hc]
    omega

theorem trim_trim (str : Str) : trim (trim str) = trim str := by
  obtain ⟨hhead, hlast, hchain⟩ := trim_clean str
  have hdrop : (trim str).dropWhile isBlank = trim str := by
    rw [List.dropWhile_eq_self_iff]
    intro hlen hblank
    have hclean := hhead _ (List.head?_eq_getElem? (l := trim str) ▸ List.getElem?_eq_getElem hlen)
    rw [hclean] at hblank
    exact Bool.false_ne_true hblank
  have hrdrop : (trim str).rdropWhile isBlank = trim str := by
    rw [List.rdropWhile_eq_self_iff]
    intro hne hblank
    rw [hlast _ (List.getLast?_eq_some_getLast hne)] at hblank
    exact Bool.false_ne_true hblank
  rw [trim, hdrop, hrdrop, squeeze_eq_self isBlank hchain]

end Trim

/-! ### `split` -/

section Split

variable {token : UInt8}

/-- The loop counts the separators, as long as both numbers fit. -/
theorem countLoop_eq (str : Str) {i len : ℕ} (hi : i < 2 ^ 32) (hlen : len < 2 ^ 31) :
    countLoop token str i len = if i + str.length < 2 ^ 32 ∧ len + str.count token < 2 ^ 31 then
      some (len + str.count token) else none := by
  induction str generalizing i len with
  | nil => rw [countLoop, if_pos ⟨hi, hlen⟩, List.count_nil, add_zero]
  | cons c str ih =>
    rw [countLoop, List.length_cons]
    by_cases hc : c = token
    · rw [if_pos hc, hc, List.count_cons_self]
      by_cases hfits : i + 1 < 2 ^ 32 ∧ len + 1 < 2 ^ 31
      · rw [if_neg fun h => absurd h.2 (by omega), if_neg (by omega), ih hfits.1 hfits.2, add_right_comm i, ← add_assoc i,
          add_right_comm len, ← add_assoc len]
      · rw [if_neg (by omega : ¬ (i + (str.length + 1) < 2 ^ 32 ∧ len + (str.count token + 1) < 2 ^ 31))]
        by_cases hover : 2 ^ 31 ≤ len + 1
        · rw [if_pos ⟨rfl, hover⟩]
        · rw [if_neg fun h => hover h.2, if_pos (by omega)]
    · rw [if_neg hc, List.count_cons_of_ne hc, if_neg fun h => hc h.1]
      by_cases hfits : i + 1 < 2 ^ 32
      · rw [if_neg (by omega), ih hfits hlen, add_right_comm i, ← add_assoc i]
      · rw [if_pos (by omega), if_neg (by omega)]

/-- The cells of which the first ones are written. -/
def written (pieces : List Str) (room : ℕ) : List (Option Str) :=
  pieces.map some ++ List.replicate room none

/-- The next cell is written. -/
theorem writeCell_written (pieces : List Str) (room : ℕ) (str : Str) :
    writeCell (written pieces (room + 1)) pieces.length str = some (written (pieces ++ [str]) room) := by
  have hlen : pieces.length = (pieces.map some).length := (List.length_map _).symm
  have hset : (written pieces (room + 1)).set pieces.length (some str) = written (pieces ++ [str]) room := by
    rw [written, written, hlen, List.set_append_right _ _ le_rfl, Nat.sub_self, List.replicate_succ,
      List.set_cons_zero, List.map_append, List.append_assoc]
    rfl
  rw [writeCell, hset, if_pos]
  rw [written, List.length_append, List.length_map, List.length_replicate]
  omega

/-- The string falls apart at its first separator. -/
theorem splitOn_of_mem {str : Str} (h : token ∈ str) :
    str.splitOn token = str.take (str.idxOf token) :: (str.drop (str.idxOf token + 1)).splitOn token ∧
      str.count token = (str.drop (str.idxOf token + 1)).count token + 1 := by
  have hlt := List.idxOf_lt_length_iff.mpr h
  have hfirst : token ∉ str.take (str.idxOf token) := by
    rw [List.mem_take_iff_idxOf_lt h]
    exact lt_irrefl _
  have hstr : str = str.take (str.idxOf token) ++ token :: str.drop (str.idxOf token + 1) := by
    conv_lhs => rw [← List.take_append_drop (str.idxOf token) str, List.drop_eq_getElem_cons hlt,
      List.getElem_idxOf hlt]
  constructor
  · conv_lhs => rw [hstr]
    rw [splitOn_eq_splitOnP, List.splitOnP_append_cons _ _ (by simp), ← splitOn_eq_splitOnP,
      splitOn_of_free hfirst, List.singleton_append, ← splitOn_eq_splitOnP]
  · conv_lhs => rw [hstr]
    rw [List.count_append, List.count_eq_zero.mpr hfirst, List.count_cons_self, zero_add]

/-- The loop that cuts writes the cells behind those that are written, as many as were counted. -/
theorem cutLoop_eq (str : Str) (pieces : List Str)
    (hint : pieces.length + str.count token + 1 < 2 ^ 31) :
    cutLoop token str pieces.length (written pieces (str.count token + 1)) =
      some (written (pieces ++ str.splitOn token) 0) := by
  induction hn : str.length using Nat.strong_induction_on generalizing str pieces with
  | _ n ih =>
    subst hn
    rw [cutLoop]
    by_cases h : token ∈ str
    · obtain ⟨hsplit, hcount⟩ := splitOn_of_mem h
      have hlt := List.idxOf_lt_length_iff.mpr h
      rw [if_pos h, hcount]
      dsimp only
      rw [writeCell_written, Option.bind_some, if_pos (by omega)]
      have hnext := ih _ (by rw [List.length_drop]; omega) (str.drop (str.idxOf token + 1))
        (pieces ++ [str.take (str.idxOf token)]) (by rw [List.length_append, List.length_singleton]; omega) rfl
      rw [List.length_append, List.length_singleton] at hnext
      rw [hnext, List.append_assoc, List.singleton_append, ← hsplit]
    · rw [if_neg h, List.count_eq_zero.mpr h, writeCell_written, splitOn_of_free h]

/-- What the reference parameters hold when every cell is written. -/
def filled (str : Str) (pieces : List Str) : Splited :=
  ⟨pieces.length, if str = [] then none else some (pieces.map some)⟩

/-- **The loops of `split`** write every cell of the array that they allocate, and no other. -/
theorem splitLoop_eq (str : Str) (token : UInt8) :
    splitLoop str token = (splitArray str token).map (filled str) := by
  rw [splitLoop, splitArray, split]
  by_cases hnil : str = []
  · rw [hnil]
    rfl
  rw [if_neg hnil, if_neg hnil, countLoop_eq str (by norm_num) (by norm_num)]
  by_cases hfits : Splittable str token
  swap
  · rw [if_neg hfits, if_neg]
    · rfl
    · rw [zero_add, add_comm 1]
      exact hfits
  rw [if_pos hfits, if_pos]
  swap
  · rw [zero_add, add_comm 1]
    exact hfits
  have hcut : cutLoop token str 0 (written [] (str.count token + 1)) =
      some (written ([] ++ str.splitOn token) 0) :=
    cutLoop_eq str [] (by rw [List.length_nil, zero_add]; exact hfits.2)
  have hfresh : List.replicate (str.count token + 1) (none : Option Str)
      = written [] (str.count token + 1) := rfl
  have hfull : written (str.splitOn token) 0 = (str.splitOn token).map some := List.append_nil _
  rw [List.nil_append, hfull] at hcut
  rw [Option.bind_some, add_comm 1, hfresh, hcut, Option.map_some, Option.map_some, filled, if_neg hnil,
    length_splitOn]

/-- The number of the pieces is an `int`. -/
theorem length_split_lt {str : Str} (h : Splittable str token) : (split str token).length < 2 ^ 31 := by
  by_cases hnil : str = []
  · rw [hnil]
    exact (by norm_num : (0 : ℕ) < 2 ^ 31)
  · rw [split_of_ne_nil hnil, length_splitOn]
    exact h.2

end Split

/-! ### `merge` -/

/-- The loop appends the strings, as long as their number fits. -/
theorem appendLoop_eq (token : UInt8) (str : Str) (splited : List Str) {i : ℕ} (hi : i < 2 ^ 31) :
    appendLoop token str i splited
      = if i + splited.length < 2 ^ 31 then some (merge token (str :: splited)) else none := by
  induction splited generalizing str i with
  | nil => rw [appendLoop, List.length_nil, add_zero, if_pos hi, merge_singleton]
  | cons x splited ih =>
    rw [appendLoop, List.length_cons]
    by_cases hint : i + 1 < 2 ^ 31
    swap
    · rw [if_neg hint, if_neg (by omega)]
    have hmerge : merge token ((str ++ token :: x) :: splited) = merge token (str :: x :: splited) := by
      rw [merge_cons_cons]
      cases splited with
      | nil => rw [merge_singleton, merge_singleton]
      | cons y splited => rw [merge_cons_cons, merge_cons_cons, List.append_assoc, List.cons_append]
    rw [if_pos hint, ih _ hint, hmerge]
    congr 1
    rw [eq_iff_iff]
    omega

/-- **The loop of `merge`** computes `merge`. -/
theorem mergeLoop_eq (token : UInt8) {splited : List Str} (hlen : splited.length < 2 ^ 31) :
    mergeLoop token splited = some (merge token splited) := by
  cases splited with
  | nil => rfl
  | cons x splited =>
    rw [List.length_cons] at hlen
    rw [mergeLoop, appendLoop_eq token x splited (by norm_num), if_pos (by omega)]

/-! ### The laws -/

/-- A line is cut into its words: `trim` is idempotent, and `split` gives the maximal runs of other
characters than blanks, none of them empty, and none only if there are only blanks. -/
def Tokenizes (before before' : UInt8) (str : Str) : Prop :=
  ∃ s, trimLoop before str = some s ∧ trimLoop before' s = some s ∧
    ∃ ws, splitLoop s (byte ' ') = some ⟨ws.length, if s = [] then none else some (ws.map some)⟩ ∧
      (∀ ws', Runs isBlank str ws' ↔ ws' = ws) ∧ [] ∉ ws ∧
      (ws.length = 0 ↔ ∀ c ∈ str, c = byte ' ')

/-- **A line of fewer than `2^31` characters is cut into its words.** -/
theorem tokenizes (before before' : UInt8) {str : Str} (hlen : str.length < 2 ^ 31) :
    Tokenizes before before' str := by
  have hshort := (trim_sublist str).length_le.trans_lt hlen
  have hruns : ∀ ws', Runs isBlank str ws' ↔ ws' = words str := by
    intro ws'
    rw [runs_iff, words_eq_tokens]
  have hsplit : splitLoop (trim str) (byte ' ') = some (filled (trim str) (words str)) := by
    rw [splitLoop_eq, splitArray, if_pos (splittable_trim hlen), Option.map_some]
    rfl
  refine ⟨trim str, trimLoop_eq before hlen, ?_, words str, hsplit, hruns,
    fun h => ne_nil_of_mem_words h rfl, ?_⟩
  · rw [trimLoop_eq before' hshort, trim_trim]
  rw [List.length_eq_zero_iff]
  constructor
  · intro hnil
    have hnone := (hruns []).mpr hnil.symm
    cases hnone with
    | nil hall => exact fun c hc => eq_blank_iff.mpr (hall c hc)
  · intro hall
    exact ((hruns []).mp (.nil fun c hc => eq_blank_iff.mp (hall c hc))).symm

/-- Two words between blanks. -/
theorem tokenizes_pair : Tokenizes 0 0 (lit "  a   b ") := tokenizes 0 0 (by decide)

/-- Behind the last of `2^31` characters stands no `int`. -/
theorem trimLoop_of_long {before : UInt8} {str : Str} (hlen : str.length = 2 ^ 31)
    (hchar : ∀ c ∈ str, c ≠ byte ' ') : trimLoop before str = none := by
  have hstay : ∀ i : ℕ, i < 2 ^ 31 → ¬ (charAt before str i = byte ' ') := by
    intro i hi
    rw [charAt_of_lt (by omega)]
    exact hchar _ (List.getElem_mem _)
  have hskip : skipLoop before str 0 = some 0 := by
    rw [skipLoop, if_neg fun hc => hstay 0 (by norm_num) hc.1]
  have hback : backLoop before str ((2 ^ 31 - 1 : ℕ) : Int) = (2 ^ 31 - 1 : ℕ) := by
    rw [backLoop, if_neg fun hc => hstay (2 ^ 31 - 1) (by norm_num) hc.1]
  have hwrap : wrap32 ((str.length : Int) - 1) = (2 ^ 31 - 1 : ℕ) := by
    rw [hlen, wrap32_of_bounds (by norm_num) (by norm_num)]
    norm_num
  have hne : str ≠ [] := fun hnil => by simp [hnil] at hlen
  rw [trimLoop, if_neg hne, hskip, Option.bind_some, List.drop_zero]
  dsimp only
  rw [hwrap, hback, eraseBehind, if_neg (by norm_num), Option.map_none]

/-- **A longer line overflows.** -/
theorem not_tokenizes_long : ¬ ∀ (before before' : UInt8) (str : Str), Tokenizes before before' str := by
  intro h
  obtain ⟨s, htrim, -⟩ := h 0 0 (List.replicate (2 ^ 31) (byte 'a'))
  have hnone : trimLoop 0 (List.replicate (2 ^ 31) (byte 'a')) = none := by
    refine trimLoop_of_long (by rw [List.length_replicate]) fun c hc => ?_
    rw [List.eq_of_mem_replicate hc]
    decide
  rw [hnone] at htrim
  exact Option.some_ne_none _ htrim.symm

/-- What `split` makes of a string, and what `merge` makes of that: every cell is written, and the pieces
have no separator. -/
def MergesBack (str : Str) (token : UInt8) : Prop :=
  ∃ pieces, splitLoop str token = some ⟨pieces.length,
      if str = [] then none else some (pieces.map some)⟩ ∧
    mergeLoop token pieces = some str ∧ ∀ piece ∈ pieces, token ∉ piece

/-- **`split` and `merge` undo each other**, as long as the number of the pieces is an `int`. -/
theorem split_merge_inverse :
    (∀ (str : Str) (token : UInt8), Splittable str token → MergesBack str token) ∧
      ∀ (token : UInt8) (xs : List Str), xs ≠ [] → xs ≠ [[]] → (∀ x ∈ xs, token ∉ x) →
        xs.length < 2 ^ 31 → ∃ str, mergeLoop token xs = some str ∧
          (str.length < 2 ^ 32 → splitLoop str token = some ⟨xs.length, some (xs.map some)⟩) := by
  constructor
  · intro str token hfits
    refine ⟨split str token, ?_, ?_, fun piece hpiece => (mem_split hpiece).1⟩
    · rw [splitLoop_eq, splitArray, if_pos hfits, Option.map_some]
      rfl
    · rw [mergeLoop_eq token (length_split_lt hfits)]
      by_cases hnil : str = []
      · rw [hnil]
        rfl
      · rw [merge_split hnil token]
  · intro token xs hne hne' hfree hlen
    have hmerge : merge token xs ≠ [] := by
      rw [Ne, merge_eq_nil, not_or]
      exact ⟨hne, hne'⟩
    have hsplit := split_merge hfree hmerge
    refine ⟨merge token xs, mergeLoop_eq token hlen, fun hshort => ?_⟩
    have hfits : Splittable (merge token xs) token := by
      refine ⟨hshort, ?_⟩
      rw [← length_splitOn, ← split_of_ne_nil hmerge, hsplit]
      exact hlen
    rw [splitLoop_eq, splitArray, if_pos hfits, Option.map_some, hsplit, filled, if_neg hmerge]

/-- Two pieces, one of them empty. -/
theorem split_merge_inverse_pair : MergesBack (lit "a,") (byte ',') ∧
    ∃ str, mergeLoop (byte ',') [lit "a", []] = some str ∧
      (str.length < 2 ^ 32 →
        splitLoop str (byte ',') = some ⟨2, some [some (lit "a"), some []]⟩) :=
  ⟨split_merge_inverse.1 (lit "a,") (byte ',') (by decide),
    split_merge_inverse.2 (byte ',') [lit "a", []] (by decide) (by decide) (by decide) (by decide)⟩

theorem splitLoop_of_many {str : Str} {token : UInt8} (h : 2 ^ 31 ≤ str.count token + 1) :
    splitLoop str token = none := by
  have hnot : ¬ Splittable str token := fun hfits => absurd hfits.2 (by omega)
  rw [splitLoop_eq, splitArray, if_neg hnot, Option.map_none]

/-- **One separator too many**: `2^31 - 1` of them make `2^31` pieces, and `len++` overflows. -/
theorem not_split_merge_inverse_long : ¬ ∀ (str : Str) (token : UInt8), MergesBack str token := by
  intro h
  obtain ⟨pieces, hsplit, -⟩ := h (List.replicate (2 ^ 31 - 1) (byte ',')) (byte ',')
  have hnone : splitLoop (List.replicate (2 ^ 31 - 1) (byte ',')) (byte ',') = none := by
    refine splitLoop_of_many ?_
    rw [List.count_replicate_self]
    omega
  rw [hnone] at hsplit
  exact Option.some_ne_none _ hsplit.symm

end MuseKv.Kvstore.Loops
