import MuseKv.Kvstore.Text

/-!
# The text routines

`words_eq_tokens`: trimming and splitting yields exactly the maximal runs of non-blank characters.
`split_merge`: a non-empty list of separator-free strings survives `merge` and `split`.
`strtoint_toStr`: `strtoint` reads back what `std::to_string` prints.
-/

namespace MuseKv.Kvstore

open General

/-! ### `split` and `merge` -/

@[simp]
theorem split_nil (t : UInt8) : split [] t = [] := rfl

theorem split_of_ne_nil {s : Str} (h : s ≠ []) (t : UInt8) : split s t = s.splitOn t :=
  if_neg h

theorem splitOn_eq_splitOnP (s : Str) (t : UInt8) : s.splitOn t = s.splitOnP (· == t) := rfl

/-- The pieces contain no separator, and only bytes of the string. -/
theorem mem_split {s w : Str} {t : UInt8} (hw : w ∈ split s t) :
    t ∉ w ∧ ∀ c ∈ w, c ∈ s := by
  have hs : s ≠ [] := by
    rintro rfl
    simp at hw
  rw [split_of_ne_nil hs, splitOn_eq_splitOnP] at hw
  have h := mem_splitOnP _ hw
  refine ⟨fun ht => ?_, fun c hc => (h c hc).2⟩
  have := (h t ht).1
  simp at this

theorem merge_split {s : Str} (h : s ≠ []) (t : UInt8) : merge t (split s t) = s := by
  rw [split_of_ne_nil h, merge, List.intercalate_splitOn]

theorem merge_cons_cons (t : UInt8) (x y : Str) (l : List Str) :
    merge t (x :: y :: l) = x ++ t :: merge t (y :: l) := by
  rw [merge, List.intercalate_cons_cons, List.append_assoc, List.singleton_append, merge]

theorem merge_singleton (t : UInt8) (x : Str) : merge t [x] = x := by
  rw [merge, List.intercalate_singleton]

theorem merge_cons (t : UInt8) (x : Str) {l : List Str} (h : l ≠ []) :
    merge t (x :: l) = x ++ t :: merge t l := by
  obtain ⟨y, l, rfl⟩ := List.exists_cons_of_ne_nil h
  exact merge_cons_cons t x y l

/-- Merging is empty only for nothing, or for one empty string. -/
theorem merge_eq_nil {t : UInt8} {l : List Str} : merge t l = [] ↔ l = [] ∨ l = [[]] := by
  match l with
  | [] => simp [merge]
  | [x] => simp [merge_singleton]
  | x :: y :: l => simp [merge_cons_cons]

/-- **Splitting undoes merging** for separator-free strings. -/
theorem split_merge {t : UInt8} {l : List Str} (h : ∀ x ∈ l, t ∉ x) (hne : merge t l ≠ []) :
    split (merge t l) t = l := by
  rw [split_of_ne_nil hne, merge, List.splitOn_intercalate t h]
  rintro rfl
  exact hne rfl

theorem mem_merge {t : UInt8} {l : List Str} {c : UInt8} (hc : c ∈ merge t l) :
    c = t ∨ ∃ x ∈ l, c ∈ x := by
  match l with
  | [] => simp [merge] at hc
  | [x] => exact Or.inr ⟨x, List.mem_cons_self .., by rwa [merge_singleton] at hc⟩
  | x :: y :: l =>
    rw [merge_cons_cons, List.mem_append, List.mem_cons] at hc
    rcases hc with hc | hc | hc
    · exact Or.inr ⟨x, List.mem_cons_self .., hc⟩
    · exact Or.inl hc
    · rcases mem_merge hc with h | ⟨z, hz, h⟩
      · exact Or.inl h
      · exact Or.inr ⟨z, List.mem_cons_of_mem _ hz, h⟩

/-- The argument loop is a merge. -/
theorem joinArgs_eq (str : Str) (args : List Str) :
    joinArgs str args = merge (byte ',') (str :: args) := by
  induction args generalizing str with
  | nil => rw [merge_singleton, joinArgs, List.foldl_nil]
  | cons arg args ih =>
    rw [joinArgs, List.foldl_cons, ← joinArgs, ih, merge_cons_cons]
    cases args with
    | nil => rw [merge_singleton, merge_singleton]
    | cons x args => rw [merge_cons_cons, merge_cons_cons, List.append_assoc, List.cons_append]

/-- Merging two non-empty lists one after the other. -/
theorem merge_append {t : UInt8} {l m : List Str} (hl : l ≠ []) (hm : m ≠ []) :
    merge t (l ++ m) = merge t l ++ t :: merge t m := by
  match l with
  | [] => exact absurd rfl hl
  | [x] => rw [List.singleton_append, merge_cons t x hm, merge_singleton]
  | x :: y :: l =>
    have ih := merge_append (t := t) (List.cons_ne_nil y l) hm
    rw [List.cons_append, List.cons_append, merge_cons_cons, merge_cons_cons,
      ← List.cons_append, ih, List.append_assoc, List.cons_append]

/-! ### The pieces of a print -/

/-- A print falls apart into the pieces of the elements. -/
theorem splitOn_merge (t : UInt8) {l : List Str} (hl : l ≠ []) :
    (merge t l).splitOn t = l.flatMap fun x => x.splitOn t := by
  induction l with
  | nil => exact absurd rfl hl
  | cons x l ih =>
    rw [List.flatMap_cons]
    by_cases hnil : l = []
    · rw [hnil, merge_singleton, List.flatMap_nil, List.append_nil]
    · rw [merge_cons t x hnil, splitOn_eq_splitOnP,
        List.splitOnP_append_cons _ _ (by simp), ← ih hnil, ← splitOn_eq_splitOnP,
        ← splitOn_eq_splitOnP]

/-- Joining the pieces of the elements joins the elements. -/
theorem merge_flatMap_splitOn (t : UInt8) (l : List Str) :
    merge t (l.flatMap fun x => x.splitOn t) = merge t l := by
  by_cases hnil : l = []
  · rw [hnil, List.flatMap_nil]
  · rw [← splitOn_merge t hnil, merge, List.intercalate_splitOn]

/-- A text without the separator is its only piece. -/
theorem splitOn_of_free {t : UInt8} {x : Str} (h : t ∉ x) : x.splitOn t = [x] := by
  rw [splitOn_eq_splitOnP, List.splitOnP_eq_singleton]
  intro c hc
  simpa using fun heq : c = t => h (heq ▸ hc)

theorem flatMap_splitOn_of_free {t : UInt8} {l : List Str} (h : ∀ x ∈ l, t ∉ x) :
    (l.flatMap fun x => x.splitOn t) = l := by
  induction l with
  | nil => rfl
  | cons x l ih =>
    rw [List.flatMap_cons, splitOn_of_free (h x (List.mem_cons_self ..)),
      ih fun y hy => h y (List.mem_cons_of_mem _ hy), List.singleton_append]

/-- Lists of pieces are told apart by what they are joined to. -/
theorem merge_inj_of_free {t : UInt8} {l m : List Str} (hl : l ≠ []) (hm : m ≠ [])
    (hfree : ∀ x ∈ l, t ∉ x) (hfree' : ∀ x ∈ m, t ∉ x) : merge t l = merge t m ↔ l = m := by
  constructor
  · intro h
    have hsplit : (merge t l).splitOn t = (merge t m).splitOn t := by rw [h]
    rwa [splitOn_merge t hl, splitOn_merge t hm, flatMap_splitOn_of_free hfree,
      flatMap_splitOn_of_free hfree'] at hsplit
  · rintro rfl
    rfl

theorem free_of_mem_flatMap_splitOn {t : UInt8} {l : List Str} :
    ∀ x ∈ l.flatMap (fun x => x.splitOn t), t ∉ x := by
  intro x hx ht
  obtain ⟨y, -, hxy⟩ := List.mem_flatMap.mp hx
  have h := (General.mem_splitOnP _ hxy t ht).1
  rw [beq_self_eq_true] at h
  exact Bool.noConfusion h

theorem flatMap_splitOn_ne_nil {t : UInt8} {l : List Str} (hl : l ≠ []) :
    (l.flatMap fun x => x.splitOn t) ≠ [] := by
  rw [← splitOn_merge t hl]
  exact List.splitOnP_ne_nil _ _

/-! ### Short texts -/

/-- A text of fewer than `2^31 - 1` characters is split without a fault. -/
theorem splitArray_of_length {str : Str} (h : str.length + 1 < 2 ^ 31) (token : UInt8) :
    splitArray str token = some (split str token) := by
  have hcount := List.count_le_length (a := token) (l := str)
  exact if_pos ⟨by omega, by omega⟩

/-- There is one piece more than there are separators. -/
theorem length_splitOn {token : UInt8} (str : Str) : (str.splitOn token).length = str.count token + 1 := by
  rw [splitOn_eq_splitOnP]
  induction str with
  | nil => rfl
  | cons c str ih =>
    rw [List.count_cons]
    cases hc : c == token with
    | true => rw [splitOnP_cons_sep (· == token) hc, List.length_cons, ih, if_pos rfl]
    | false =>
      obtain ⟨hd, tl, hsplit⟩ := exists_splitOnP (· == token) str
      rw [hsplit] at ih
      rw [splitOnP_cons_of_split (· == token) hc hsplit, if_neg Bool.false_ne_true, add_zero, ← ih]
      rfl

/-- A string is no longer than what it is merged into. -/
theorem length_le_merge {token : UInt8} {x : Str} {l : List Str} (h : x ∈ l) :
    x.length ≤ (merge token l).length := by
  induction l with
  | nil => exact absurd h (by simp)
  | cons y l ih =>
    cases l with
    | nil => rw [List.mem_singleton.mp h, merge_singleton]
    | cons z l =>
      rw [merge_cons_cons, List.length_append, List.length_cons]
      rcases List.mem_cons.mp h with rfl | h
      · omega
      · have hle := ih h
        omega

theorem length_split_le (str : Str) (token : UInt8) :
    (split str token).length ≤ str.count token + 1 := by
  by_cases hnil : str = []
  · rw [hnil]
    exact Nat.zero_le _
  · rw [split_of_ne_nil hnil, length_splitOn]

theorem length_le_of_mem_split {str piece : Str} {token : UInt8} (h : piece ∈ split str token) :
    piece.length ≤ str.length := by
  have hnil : str ≠ [] := by
    rintro rfl
    exact absurd h (by simp)
  obtain ⟨l, r, hlr⟩ := List.append_of_mem h
  have hmerge := merge_split hnil token
  rw [hlr] at hmerge
  rw [← hmerge]
  exact length_le_merge (List.mem_append_right _ (List.mem_cons_self ..))

theorem unsigned_length_add (str : Str) : signLength str + (unsigned str).length = str.length := by
  rw [signLength, unsigned]
  cases str with
  | nil => rfl
  | cons c str =>
    split_ifs
    · rw [List.tail_cons, List.length_cons, add_comm]
    · rw [zero_add]

theorem strtoint_of_readInt {str : Str} {r : Bool × Int} (h : readInt str = some r) :
    strtoint str = some r := by
  rw [readInt] at h
  split_ifs at h
  exact h

theorem readInt_of_length {str : Str} (h : str.length < 2 ^ 31) : readInt str = strtoint str := by
  have hsum := unsigned_length_add str
  have hle := (List.takeWhile_prefix isDigit (l := unsigned str)).length_le
  refine if_pos ?_
  rw [Indexable, leadingDigits]
  omega

/-! ### Words -/

theorem trim_sublist (s : Str) : (trim s).Sublist s :=
  (squeeze_sublist _ _).trans
    ((List.rdropWhile_prefix _ _).sublist.trans (List.dropWhile_suffix _).sublist)

/-- A trimmed string is clean: no leading, trailing or doubled blank. -/
theorem trim_clean (s : Str) :
    (∀ c ∈ (trim s).head?, isBlank c = false) ∧ (∀ c ∈ (trim s).getLast?, isBlank c = false) ∧
      List.IsChain (fun c d => isBlank c = true → isBlank d = false) (trim s) := by
  refine ⟨head?_squeeze isBlank ?_, ?_, isChain_squeeze isBlank _⟩
  · intro c hc
    have hdrop := List.head?_dropWhile_not isBlank s
    obtain ⟨t, ht⟩ := List.rdropWhile_prefix isBlank (l := s.dropWhile isBlank)
    cases hr : (s.dropWhile isBlank).rdropWhile isBlank with
    | nil => simp [hr] at hc
    | cons d r =>
      rw [hr, List.cons_append] at ht
      rw [hr, List.head?_cons, Option.mem_some_iff] at hc
      rw [← ht, List.head?_cons] at hdrop
      rw [← hc]
      simpa using hdrop
  · intro c hc
    rw [trim, getLast?_squeeze] at hc
    cases hr : (s.dropWhile isBlank).rdropWhile isBlank with
    | nil => simp [hr] at hc
    | cons d r =>
      have hne : (s.dropWhile isBlank).rdropWhile isBlank ≠ [] := by simp [hr]
      have hlast := List.rdropWhile_last_not isBlank (s.dropWhile isBlank) hne
      rw [List.getLast?_eq_some_getLast hne, Option.mem_some_iff] at hc
      rw [hc] at hlast
      simpa using hlast

/-- **The words of a command line are its maximal runs of non-blank characters.** -/
theorem words_eq_tokens (s : Str) : words s = tokens isBlank s := by
  obtain ⟨hhead, hlast, hchain⟩ := trim_clean s
  have htok : tokens isBlank (trim s) = tokens isBlank s := by
    rw [trim, tokens_squeeze, tokens_rdropWhile, tokens_dropWhile]
  by_cases hs : trim s = []
  · rw [words, hs, split_nil, ← htok, hs, tokens_nil]
  · rw [words, split_of_ne_nil hs, ← htok, ← splitOnP_eq_tokens isBlank hs hhead hlast hchain]
    rfl

theorem ne_nil_of_mem_words {s w : Str} (h : w ∈ words s) : w ≠ [] := by
  rw [words_eq_tokens] at h
  exact ne_nil_of_mem_tokens isBlank h

/-- A word contains no blank, and only bytes of the line. -/
theorem mem_words {s w : Str} (h : w ∈ words s) : ∀ c ∈ w, isBlank c = false ∧ c ∈ s := by
  rw [words_eq_tokens] at h
  exact mem_tokens isBlank h

@[simp]
theorem words_nil : words [] = [] := by
  rw [words_eq_tokens, tokens_nil]

/-- A blank separates words. -/
theorem words_append_blank (s t : Str) : words (s ++ byte ' ' :: t) = words s ++ words t := by
  rw [words_eq_tokens, tokens_append_cons isBlank (by decide), words_eq_tokens, words_eq_tokens]

theorem words_blank_cons (t : Str) : words (byte ' ' :: t) = words t := by
  rw [words_eq_tokens, tokens_cons isBlank (by decide), words_eq_tokens]

theorem words_eq_singleton {w : Str} (hw : w ≠ []) (h : ∀ c ∈ w, isBlank c = false) :
    words w = [w] := by
  rw [words_eq_tokens, tokens_eq_singleton isBlank hw h]

/-- A literal without a blank. -/
theorem not_blank_of_all {w : Str} (h : (w.all fun c => !isBlank c) = true) :
    ∀ c ∈ w, isBlank c = false :=
  fun c hc => by simpa using List.all_eq_true.mp h c hc

/-- A blank-free word in front of a line is its first word. -/
theorem words_cons_blank {w : Str} (hw : w ≠ []) (h : ∀ c ∈ w, isBlank c = false) (t : Str) :
    words (w ++ byte ' ' :: t) = w :: words t := by
  rw [words_append_blank, words_eq_singleton hw h, List.singleton_append]

/-- A line falls into a part that ends with a blank, if it is not empty, and a word. -/
theorem exists_last_word (s : Str) : ∃ a w : Str, s = a ++ w ∧ (∀ c ∈ w, isBlank c = false) ∧
    ∀ t, words (a ++ t) = words a ++ words t := by
  refine ⟨s.rdropWhile fun c => !isBlank c, s.rtakeWhile fun c => !isBlank c,
    (List.rdropWhile_append_rtakeWhile ..).symm, fun c hc => ?_, fun t => ?_⟩
  · simpa using List.mem_rtakeWhile_imp hc
  · rcases List.eq_nil_or_concat (s.rdropWhile fun c => !isBlank c) with hnil | ⟨a, c, ha⟩
    · rw [hnil, words_nil, List.nil_append, List.nil_append]
    · have hlast := List.rdropWhile_last_not (fun c => !isBlank c) s (by simp [ha])
      simp only [ha, List.concat_eq_append, List.getLast_concat] at hlast
      obtain rfl : c = byte ' ' := by simpa [isBlank] using hlast
      rw [ha, List.concat_eq_append, List.append_assoc, List.singleton_append, words_append_blank,
        words_append_blank, words_nil, List.append_nil]

/-- The first word of a line without a blank in front of it. -/
theorem exists_words_cons {w : Str} (hw : w ≠ []) (h : ∀ c ∈ w, isBlank c = false) (t : Str) :
    ∃ w' rest, words (w ++ t) = (w ++ w') :: rest := by
  have hall : ∀ c ∈ w ++ t.takeWhile (fun c => !isBlank c), isBlank c = false := by
    intro c hc
    rcases List.mem_append.mp hc with hc | hc
    · exact h c hc
    · simpa using List.mem_takeWhile_imp hc
  have hne : w ++ t.takeWhile (fun c => !isBlank c) ≠ [] := by simp [hw]
  have hsplit := List.takeWhile_append_dropWhile (p := fun c => !isBlank c) (l := t)
  refine ⟨t.takeWhile fun c => !isBlank c, (words (t.dropWhile fun c => !isBlank c)), ?_⟩
  conv_lhs => rw [← hsplit, ← List.append_assoc]
  cases hrest : t.dropWhile fun c => !isBlank c with
  | nil => rw [List.append_nil, words_eq_singleton hne hall, words_nil]
  | cons c rest =>
    have hc : c = byte ' ' := by
      have hhead := List.head?_dropWhile_not (fun c => !isBlank c) t
      rw [hrest, List.head?_cons] at hhead
      simpa [isBlank] using hhead
    rw [hc, words_cons_blank hne hall, words_blank_cons]

/-- **A line that is cut** inside of a word keeps the words in front of it. -/
theorem words_cut {c : UInt8} (hc : isBlank c = false) (s t : Str) : ∃ (ws : List Str) (w w' : Str)
    (rest : List Str), words s = ws ++ (if w = [] then [] else [w]) ∧
      words (s ++ c :: t) = ws ++ (w ++ c :: w') :: rest := by
  obtain ⟨a, w, rfl, hw, ha⟩ := exists_last_word s
  obtain ⟨w', rest, hrest⟩ := exists_words_cons (w := w ++ [c]) (by simp) (by
    intro d hd
    rcases List.mem_append.mp hd with hd | hd
    · exact hw d hd
    · rwa [List.mem_singleton.mp hd]) t
  rw [List.append_assoc, List.append_assoc, List.singleton_append, List.singleton_append] at hrest
  refine ⟨words a, w, w', rest, ?_, ?_⟩
  · rw [ha]
    congr 1
    split_ifs with hnil
    · rw [hnil, words_nil]
    · exact words_eq_singleton hnil hw
  · rw [List.append_assoc, ha, hrest]

/-- The first word of a line is that of every part of the line that holds it. -/
theorem head?_words_append {s t w : Str} {c : UInt8} (hc : isBlank c = false)
    (h : (words (s ++ c :: t)).head? = some w) (hw : c ∉ w) : (words s).head? = some w := by
  obtain ⟨ws, u, v, rest, hs, hst⟩ := words_cut hc s t
  rw [hst] at h
  rw [hs]
  cases ws with
  | nil =>
    -- the word would go on to the character behind the part
    rw [List.nil_append, List.head?_cons] at h
    exact absurd (by simp) (Option.some.inj h ▸ hw)
  | cons a ws => exact h

/-- **A line that is cut** behind some of its words keeps the number that follows them, unless it is
cut in front of the number. -/
theorem words_cut_number {c : UInt8} (hblank : isBlank c = false) (hspace : isSpace c = false)
    (hdigit : isDigit c = false) (hminus : c ≠ byte '-') (hplus : c ≠ byte '+') {s t : Str}
    {as : List Str} {arg : Str} {rest : List Str} (h : words (s ++ c :: t) = as ++ arg :: rest)
    (has : ∀ a ∈ as, c ∉ a) (harg : atoi arg ≠ 0) :
    ∃ arg' rest', words s = as ++ arg' :: rest' ∧ atoi arg' = atoi arg := by
  obtain ⟨ws, u, v, rest', hs, hst⟩ := words_cut hblank s t
  have hcut : arg = u ++ c :: v → ws = as → ∃ arg' rest', words s = as ++ arg' :: rest' ∧
      atoi arg' = atoi arg := by
    rintro rfl rfl
    have hatoi := atoi_append hspace hdigit hminus hplus u v
    have hne : u ≠ [] := by
      rintro rfl
      exact harg (hatoi.trans (by decide))
    exact ⟨u, [], by rw [hs, if_neg hne], hatoi.symm⟩
  rw [hst, List.append_eq_append_iff] at h
  rcases h with ⟨as', rfl, h⟩ | ⟨ws', rfl, h⟩
  · cases as' with
    | nil => exact hcut (List.cons.inj h).1.symm (List.append_nil ws).symm
    | cons a as' =>
      rw [← (List.cons.inj h).1] at has
      exact absurd (by simp) (has (u ++ c :: v) (by simp))
  · cases ws' with
    | nil => exact hcut (List.cons.inj h).1 (List.append_nil as)
    | cons a ws' =>
      rw [(List.cons.inj h).1]
      exact ⟨a, _, by rw [hs, List.append_assoc, List.cons_append], rfl⟩

theorem words_toStr (x : Int) : words (toStr x) = [toStr x] := by
  refine words_eq_singleton (toStr_ne_nil x) fun c hc => ?_
  by_contra hblank
  have hc' : c = byte ' ' := by simpa [isBlank] using hblank
  exact not_mem_toStr (c := byte ' ') (by decide) (by decide) x (hc' ▸ hc)

/-! ### `strtoint` -/

/-- As long as the value stays below `2^31`, the loop of `strtoint` is Horner's rule. -/
theorem strtointLoop_digits (s : Str) (hs : ∀ c ∈ s, isDigit c = true) (r : Int) (h₀ : 0 ≤ r)
    (h : s.foldl (fun a c => 10 * a + digitVal c) r < 2 ^ 31) :
    strtointLoop s r = some (s.foldl (fun a c => 10 * a + digitVal c) r) := by
  induction s generalizing r with
  | nil => rfl
  | cons c s ih =>
    have hc := hs c (List.mem_cons_self ..)
    have hs' : ∀ d ∈ s, isDigit d = true := fun d hd => hs d (List.mem_cons_of_mem _ hd)
    have hd := (digitVal_bounds hc).1
    rw [List.foldl_cons] at h ⊢
    -- the digits that follow only add to the value, so this one does not overflow
    have hle := le_foldl_digits hs' (r := 10 * r + digitVal c) (by omega)
    rw [strtointLoop, if_pos hc, wrap32_of_bounds (x := r * 10) (by omega) (by omega),
      wrap32_of_bounds (by omega) (by omega), mul_comm r 10]
    exact ih hs' _ (by omega) h

/-- **`strtoint` reads back what `std::to_string` prints** of a natural number below `2^31`. -/
theorem strtoint_toStr {n : ℕ} (h : n < 2 ^ 31) : strtoint (toStr n) = some (true, (n : Int)) := by
  obtain ⟨c, ds, hds, hc⟩ := exists_digits n
  have hm : c ≠ byte '-' := (isSpace_of_isDigit hc).2.1
  have hf := foldl_digits n
  have hloop : strtointLoop (c :: ds) 0 = some (n : Int) := by
    rw [← hf, ← hds]
    exact strtointLoop_digits _ (fun d hd => isDigit_of_mem_digits hd) 0 (le_refl 0)
      (by rw [hf]; exact_mod_cast h)
  change strtoint (toStr (.ofNat n)) = _
  rw [toStr, hds, strtoint, if_neg hm, hloop, strtointResult, one_mul,
    wrap32_natCast h]

theorem strtoint_isSome {s : Str} (h : s ≠ []) : ∃ r, strtoint s = some r := by
  obtain ⟨c, s, rfl⟩ := List.exists_cons_of_ne_nil h
  rw [strtoint]
  split_ifs
  · exact ⟨_, rfl⟩
  · exact ⟨_, rfl⟩

end MuseKv.Kvstore
