import Mathlib.Data.List.Chain
import Mathlib.Data.List.DropRight

/-!
# Tokens of a separated list

`tokens p s` is the list of the maximal runs of `s` that contain no element satisfying `p`.
`squeeze p` drops every element of a separator run but the last.  A list without leading, trailing
and doubled separators is cut by `List.splitOnP` into exactly its tokens (`splitOnP_eq_tokens`), and
dropping leading, trailing and doubled separators does not change the tokens
(`tokens_dropWhile`, `tokens_rdropWhile`, `tokens_squeeze`).  `Runs` says what maximal runs are, and the
tokens are the only ones (`runs_iff`).
-/

namespace MuseKv.General

variable {α : Type*} (p : α → Bool)

/-- The maximal separator-free runs of a list, in order. -/
def tokens [DecidableEq α] (s : List α) : List (List α) := (s.splitOnP p).filter (· ≠ [])

/-- The first piece of a split, and the others. -/
theorem exists_splitOnP (s : List α) : ∃ hd tl, s.splitOnP p = hd :: tl :=
  List.exists_cons_of_ne_nil (List.splitOnP_ne_nil p s)

theorem splitOnP_cons_sep {c : α} (hc : p c = true) (s : List α) :
    (c :: s).splitOnP p = [] :: s.splitOnP p := by
  rw [List.splitOnP_cons_eq_if_modifyHead, if_pos hc]

theorem splitOnP_cons_of_split {c : α} (hc : p c = false) {s hd : List α} {tl : List (List α)}
    (h : s.splitOnP p = hd :: tl) : (c :: s).splitOnP p = (c :: hd) :: tl := by
  rw [List.splitOnP_cons_eq_if_modifyHead, if_neg (by simp [hc]), h, List.modifyHead_cons]

/-- The pieces of a split contain no separator, and only elements of the list. -/
theorem mem_splitOnP {s w : List α} (hw : w ∈ s.splitOnP p) :
    ∀ c ∈ w, p c = false ∧ c ∈ s := by
  induction s generalizing w with
  | nil =>
    rw [List.splitOnP_nil, List.mem_singleton] at hw
    simp [hw]
  | cons d s ih =>
    obtain ⟨hd, tl, hsplit⟩ := exists_splitOnP p s
    rw [hsplit] at ih
    cases hd' : p d with
    | true =>
      rw [splitOnP_cons_sep p hd', List.mem_cons, hsplit] at hw
      rcases hw with rfl | hw
      · simp
      · intro c hc
        exact ⟨(ih hw c hc).1, List.mem_cons_of_mem _ (ih hw c hc).2⟩
    | false =>
      rw [splitOnP_cons_of_split p hd' hsplit, List.mem_cons] at hw
      rcases hw with rfl | hw
      · intro c hc
        rcases List.mem_cons.mp hc with rfl | hc
        · exact ⟨hd', List.mem_cons_self ..⟩
        · have h := ih (List.mem_cons_self ..) c hc
          exact ⟨h.1, List.mem_cons_of_mem _ h.2⟩
      · intro c hc
        have h := ih (List.mem_cons_of_mem _ hw) c hc
        exact ⟨h.1, List.mem_cons_of_mem _ h.2⟩

section Tokens

variable [DecidableEq α]

@[simp]
theorem tokens_nil : tokens p ([] : List α) = [] := by
  simp [tokens]

/-- A separator cuts the tokens in two. -/
theorem tokens_append_cons {c : α} (hc : p c = true) (s t : List α) :
    tokens p (s ++ c :: t) = tokens p s ++ tokens p t := by
  rw [tokens, List.splitOnP_append_cons s t hc, List.filter_append, tokens, tokens]

theorem tokens_cons {c : α} (hc : p c = true) (s : List α) : tokens p (c :: s) = tokens p s := by
  have h := tokens_append_cons p hc [] s
  rwa [List.nil_append, tokens_nil, List.nil_append] at h

/-- A non-empty separator-free list is its own only token. -/
theorem tokens_eq_singleton {s : List α} (hs : s ≠ []) (h : ∀ c ∈ s, p c = false) :
    tokens p s = [s] := by
  rw [tokens, List.splitOnP_eq_singleton h]
  simp [hs]

theorem ne_nil_of_mem_tokens {s w : List α} (hw : w ∈ tokens p s) : w ≠ [] := by
  have h := (List.mem_filter.mp hw).2
  simpa using h

theorem mem_tokens {s w : List α} (hw : w ∈ tokens p s) : ∀ c ∈ w, p c = false ∧ c ∈ s :=
  mem_splitOnP p (List.mem_of_mem_filter hw)

/-! ### Dropping leading and trailing separators -/

theorem tokens_dropWhile (s : List α) : tokens p (s.dropWhile p) = tokens p s := by
  induction s with
  | nil => rfl
  | cons c s ih =>
    by_cases hc : p c = true
    · rw [List.dropWhile_cons, if_pos hc, ih, tokens_cons p hc]
    · rw [List.dropWhile_cons, if_neg hc]

theorem tokens_rdropWhile (s : List α) : tokens p (s.rdropWhile p) = tokens p s := by
  induction s using List.reverseRecOn with
  | nil => rfl
  | append_singleton s c ih =>
    by_cases hc : p c = true
    · rw [List.rdropWhile_concat, if_pos hc, ih, tokens_append_cons p hc, tokens_nil,
        List.append_nil]
    · rw [List.rdropWhile_concat, if_neg hc]

end Tokens

/-! ### Squeezing separator runs -/

/-- Of every run of separators, keep the last one only. -/
def squeeze : List α → List α
  | [] => []
  | [c] => [c]
  | c :: d :: s => if p c && p d then squeeze (d :: s) else c :: squeeze (d :: s)

theorem squeeze_sublist (s : List α) : (squeeze p s).Sublist s := by
  match s with
  | [] => exact List.Sublist.refl _
  | [_] => exact List.Sublist.refl _
  | c :: d :: s =>
    rw [squeeze]
    split_ifs
    · exact (squeeze_sublist (d :: s)).cons c
    · exact (squeeze_sublist (d :: s)).cons_cons c

/-- The first piece of the split survives, and so do the non-empty ones among the others. -/
theorem splitOnP_squeeze [DecidableEq α] (s : List α) :
    ∃ hd tl tl', s.splitOnP p = hd :: tl ∧ (squeeze p s).splitOnP p = hd :: tl' ∧
      tl'.filter (· ≠ []) = tl.filter (· ≠ []) := by
  match s with
  | [] => exact ⟨[], [], [], rfl, rfl, rfl⟩
  | [c] =>
    obtain ⟨hd, tl, h⟩ := exists_splitOnP p [c]
    exact ⟨hd, tl, tl, h, h, rfl⟩
  | c :: d :: s =>
    obtain ⟨hd, tl, tl', h, h', hf⟩ := splitOnP_squeeze (d :: s)
    rw [squeeze]
    cases hc : p c with
    | false =>
      rw [Bool.false_and, if_neg Bool.false_ne_true]
      exact ⟨c :: hd, tl, tl', splitOnP_cons_of_split p hc h, splitOnP_cons_of_split p hc h', hf⟩
    | true =>
      cases hd' : p d with
      | true =>
        -- the dropped separator only adds an empty piece
        have hnil : hd = [] := by
          have hsep := splitOnP_cons_sep p hd' s
          rw [h] at hsep
          exact (List.cons.inj hsep).1
        refine ⟨[], hd :: tl, tl', by rw [splitOnP_cons_sep p hc, h], ?_, ?_⟩
        · rw [Bool.and_self, if_pos rfl, h', hnil]
        · rw [hf, hnil]
          simp
      | false =>
        rw [Bool.and_false, if_neg Bool.false_ne_true]
        exact ⟨[], hd :: tl, hd :: tl', by rw [splitOnP_cons_sep p hc, h],
          by rw [splitOnP_cons_sep p hc, h'], by simp only [List.filter_cons, hf]⟩

theorem tokens_squeeze [DecidableEq α] (s : List α) : tokens p (squeeze p s) = tokens p s := by
  obtain ⟨hd, tl, tl', h, h', hf⟩ := splitOnP_squeeze p s
  rw [tokens, tokens, h, h', List.filter_cons, List.filter_cons, hf]

/-- The first element of a squeezed list is the first element, if that is no separator. -/
theorem head?_squeeze {s : List α} (h : ∀ c ∈ s.head?, p c = false) :
    ∀ c ∈ (squeeze p s).head?, p c = false := by
  match s with
  | [] => exact h
  | [c] => exact h
  | c :: d :: s =>
    have hc : p c = false := h c rfl
    rw [squeeze, hc, Bool.false_and, if_neg Bool.false_ne_true]
    intro e he
    rw [List.head?_cons, Option.mem_some_iff] at he
    rw [← he, hc]

theorem squeeze_ne_nil {s : List α} (h : s ≠ []) : squeeze p s ≠ [] := by
  match s with
  | [] => exact h
  | [c] => exact h
  | c :: d :: s =>
    rw [squeeze]
    split_ifs
    · exact squeeze_ne_nil (s := d :: s) (List.cons_ne_nil _ _)
    · exact List.cons_ne_nil _ _

theorem getLast?_squeeze (s : List α) : (squeeze p s).getLast? = s.getLast? := by
  match s with
  | [] => rfl
  | [c] => rfl
  | c :: d :: s =>
    have ih := getLast?_squeeze (d :: s)
    obtain ⟨e, t, hs⟩ := List.exists_cons_of_ne_nil (squeeze_ne_nil p (List.cons_ne_nil d s))
    rw [squeeze]
    split_ifs
    · rw [ih, List.getLast?_cons_cons]
    · rw [hs, List.getLast?_cons_cons, ← hs, ih, List.getLast?_cons_cons]

/-- No two neighbours of a squeezed list are both separators. -/
theorem isChain_squeeze (s : List α) :
    List.IsChain (fun c d => p c = true → p d = false) (squeeze p s) := by
  match s with
  | [] => exact List.IsChain.nil
  | [c] => exact List.IsChain.singleton c
  | c :: d :: s =>
    have ih := isChain_squeeze (d :: s)
    rw [squeeze]
    split_ifs with h
    · exact ih
    · refine List.isChain_cons.mpr ⟨?_, ih⟩
      intro e he hc
      refine head?_squeeze p (s := d :: s) ?_ e he
      intro f hf
      rw [List.head?_cons, Option.mem_some_iff] at hf
      rw [← hf]
      simpa [hc] using h

/-- A list without doubled separators is squeezed already. -/
theorem squeeze_eq_self {s : List α}
    (h : List.IsChain (fun c d => p c = true → p d = false) s) : squeeze p s = s := by
  match s with
  | [] => rfl
  | [c] => rfl
  | c :: d :: s =>
    obtain ⟨hcd, hchain⟩ := List.isChain_cons_cons.mp h
    rw [squeeze, if_neg (by simpa using hcd), squeeze_eq_self hchain]

/-! ### A clean list is split into its tokens -/

/-- Without doubled and trailing separators, only the first piece of a split can be empty, and it
is so only behind a leading separator. -/
theorem splitOnP_ne_nil_of_clean {s hd : List α} {tl : List (List α)} (h : s.splitOnP p = hd :: tl)
    (hlast : ∀ c ∈ s.getLast?, p c = false)
    (hchain : List.IsChain (fun c d => p c = true → p d = false) s) :
    (∀ w ∈ tl, w ≠ []) ∧ (s ≠ [] → (∀ c ∈ s.head?, p c = false) → hd ≠ []) := by
  induction s generalizing hd tl with
  | nil =>
    rw [List.splitOnP_nil, List.cons.injEq] at h
    rw [← h.2]
    exact ⟨by simp, fun hs => absurd rfl hs⟩
  | cons c s ih =>
    obtain ⟨hd', tl', hs⟩ := exists_splitOnP p s
    rw [List.isChain_cons] at hchain
    have hlast' : ∀ c ∈ s.getLast?, p c = false := by
      cases s with
      | nil => simp
      | cons d s => rwa [List.getLast?_cons_cons] at hlast
    obtain ⟨htl, hhd⟩ := ih hs hlast' hchain.2
    cases hc : p c with
    | false =>
      rw [splitOnP_cons_of_split p hc hs, List.cons.injEq] at h
      rw [← h.1, ← h.2]
      exact ⟨htl, fun _ _ => List.cons_ne_nil _ _⟩
    | true =>
      rw [splitOnP_cons_sep p hc, hs, List.cons.injEq] at h
      -- behind this separator comes no other one, and not the end
      refine ⟨?_, fun _ hhead => absurd (hhead c rfl) (by simp [hc])⟩
      rw [← h.2]
      intro w hw
      rcases List.mem_cons.mp hw with rfl | hw
      · refine hhd ?_ fun d hd => hchain.1 d hd hc
        rintro rfl
        exact absurd (hlast c rfl) (by simp [hc])
      · exact htl w hw

/-- **A clean list splits into its tokens**: nothing is lost by not filtering the pieces. -/
theorem splitOnP_eq_tokens [DecidableEq α] {s : List α} (hs : s ≠ [])
    (hhead : ∀ c ∈ s.head?, p c = false) (hlast : ∀ c ∈ s.getLast?, p c = false)
    (hchain : List.IsChain (fun c d => p c = true → p d = false) s) :
    s.splitOnP p = tokens p s := by
  obtain ⟨hd, tl, h⟩ := exists_splitOnP p s
  obtain ⟨htl, hhd⟩ := splitOnP_ne_nil_of_clean p h hlast hchain
  rw [tokens, List.filter_eq_self.mpr]
  intro w hw
  rw [h, List.mem_cons] at hw
  rcases hw with rfl | hw
  · simpa using hhd hs hhead
  · simpa using htl w hw

/-! ### Maximal runs -/

/-- The maximal runs without a separator, in their order: in front of each one stand separators, and
behind it another separator or nothing. -/
inductive Runs : List α → List (List α) → Prop
  | nil {g : List α} (hg : ∀ c ∈ g, p c = true) : Runs g []
  | cons {g w rest : List α} {ws : List (List α)} (hg : ∀ c ∈ g, p c = true) (hw : w ≠ [])
      (hclean : ∀ c ∈ w, p c = false) (hend : ∀ c ∈ rest.head?, p c = true) (h : Runs rest ws) :
      Runs (g ++ (w ++ rest)) (w :: ws)

theorem tokens_of_separators [DecidableEq α] {g : List α} (hg : ∀ c ∈ g, p c = true) (s : List α) :
    tokens p (g ++ s) = tokens p s := by
  induction g with
  | nil => rfl
  | cons c g ih =>
    rw [List.cons_append, tokens_cons p (hg c (List.mem_cons_self ..)),
      ih fun c hc => hg c (List.mem_cons_of_mem _ hc)]

theorem Runs.eq_tokens [DecidableEq α] {s : List α} {ws : List (List α)} (h : Runs p s ws) :
    ws = tokens p s := by
  induction h with
  | @nil g hg =>
    have hall := tokens_of_separators p hg []
    rwa [List.append_nil, tokens_nil, eq_comm] at hall
  | @cons g w rest ws hg hw hclean hend _ ih =>
    rw [tokens_of_separators p hg, ih]
    cases rest with
    | nil => rw [List.append_nil, tokens_eq_singleton p hw hclean, tokens_nil]
    | cons c rest =>
      have hc : p c = true := hend c rfl
      rw [tokens_append_cons p hc, tokens_eq_singleton p hw hclean, tokens_cons p hc,
        List.singleton_append]

theorem runs_tokens [DecidableEq α] (s : List α) : Runs p s (tokens p s) := by
  -- induction on the length: what is behind the first run is shorter
  induction hn : s.length using Nat.strong_induction_on generalizing s with
  | _ n ih =>
    subst hn
    have hsplit := List.takeWhile_append_dropWhile (p := p) (l := s)
    have hg : ∀ c ∈ s.takeWhile p, p c = true := fun c hc => List.mem_takeWhile_imp hc
    by_cases hrest : s.dropWhile p = []
    · rw [hrest, List.append_nil] at hsplit
      have htok : tokens p s = [] := by
        have hall := tokens_of_separators p hg []
        rwa [List.append_nil, hsplit, tokens_nil] at hall
      rw [htok]
      exact .nil fun c hc => hg c (hsplit.symm ▸ hc)
    · obtain ⟨c, rest, hcons⟩ := List.exists_cons_of_ne_nil hrest
      have hc : p c = false := by
        have hhead := List.head?_dropWhile_not p s
        rw [hcons, List.head?_cons] at hhead
        simpa using hhead
      have hword := List.takeWhile_append_dropWhile (p := fun c => !p c) (l := c :: rest)
      have hclean : ∀ d ∈ (c :: rest).takeWhile (fun c => !p c), p d = false :=
        fun d hd => by simpa using List.mem_takeWhile_imp hd
      have hw : (c :: rest).takeWhile (fun c => !p c) ≠ [] := by
        rw [List.takeWhile_cons_of_pos (by simp [hc])]
        exact List.cons_ne_nil _ _
      have hend : ∀ d ∈ ((c :: rest).dropWhile fun c => !p c).head?, p d = true := by
        intro d hd
        have hhead := List.head?_dropWhile_not (fun c => !p c) (c :: rest)
        rw [Option.mem_def.mp hd] at hhead
        simpa using hhead
      have hlen : ((c :: rest).dropWhile fun c => !p c).length < s.length := by
        have h₁ := congrArg List.length hword
        have h₂ := congrArg List.length hsplit
        have h₃ := List.length_pos_iff.mpr hw
        rw [List.length_append] at h₁ h₂
        rw [hcons] at h₂
        omega
      have hruns := Runs.cons (p := p) hg hw hclean hend (ih _ hlen _ rfl)
      rw [hword, ← hcons, hsplit] at hruns
      rwa [← hruns.eq_tokens]

/-- **The maximal runs are the tokens.** -/
theorem runs_iff [DecidableEq α] {s : List α} {ws : List (List α)} :
    Runs p s ws ↔ ws = tokens p s := by
  constructor
  · exact fun h => h.eq_tokens
  · rintro rfl
    exact runs_tokens p s

/-! ### Searching for a list in a framed one -/

theorem infix_append_left_iff {w pre s : List α} (hw : w ≠ []) (h : ∀ c ∈ pre, c ∉ w) :
    w <:+: pre ++ s ↔ w <:+: s := by
  induction pre with
  | nil => rw [List.nil_append]
  | cons c pre ih =>
    rw [List.cons_append, List.infix_cons_iff, ih fun c hc => h c (List.mem_cons_of_mem _ hc)]
    refine or_iff_right fun hp => h c (List.mem_cons_self ..) ?_
    obtain ⟨d, w, rfl⟩ := List.exists_cons_of_ne_nil hw
    obtain ⟨rfl, -⟩ := List.cons_prefix_cons.mp hp
    exact List.mem_cons_self ..

theorem infix_append_right_iff {w s post : List α} (hw : w ≠ []) (h : ∀ c ∈ post, c ∉ w) :
    w <:+: s ++ post ↔ w <:+: s := by
  rw [← List.reverse_infix, List.reverse_append, infix_append_left_iff, List.reverse_infix]
  · exact List.reverse_ne_nil_iff.mpr hw
  · intro c hc hcw
    exact h c (List.mem_reverse.mp hc) (List.mem_reverse.mp hcw)

/-- A frame whose characters do not occur in a list does not help to find it. -/
theorem infix_frame_iff {w pre s post : List α} (hw : w ≠ []) (hpre : ∀ c ∈ pre, c ∉ w)
    (hpost : ∀ c ∈ post, c ∉ w) : w <:+: pre ++ s ++ post ↔ w <:+: s := by
  rw [infix_append_right_iff hw hpost, infix_append_left_iff hw hpre]

end MuseKv.General
