import MuseKv.Hash.Load
import MuseKv.Kvstore.Equiv.Text

/-!
# Reading an arbitrary file

`read_eq_some_iff` says once what `read` does: it enters the records of `Reads`, in order.  So a read
that fails leaves the table with the records in front of the damaged line (`read_failed`), and a read
is safe exactly when every line it comes to is harmless (`safe_iff`).
-/

namespace MuseKv

open General Kvstore

namespace Hash

variable {password : Int} {line message : Str} {lines : List Str} {h h' : Hash} {b : Bool}
  {rs : List Record} {r : Record}

/-! ### The loop -/

theorem readLines_cons : readLines password (line :: lines) h =
    match readLine password line with
    | none => none
    | some none => some (false, h)
    | some (some r) => readLines password lines (h.enter r) := by
  rw [readLines, readLine]
  cases decryptLine password line with
  | none => rfl
  | some message? =>
    cases message? with
    | none => rfl
    | some message =>
      dsimp only
      cases readRecord message with
      | none => rfl
      | some r? =>
        cases r? with
        | none => rfl
        | some r => rfl

/-- **The loop enters the records of `Loads`**, in order. -/
theorem readLines_eq_some_iff : readLines password lines h = some (b, h') ↔
    ∃ rs, Loads password lines b rs ∧ h' = rs.foldl enter h := by
  constructor
  · intro hr
    induction lines generalizing h with
    | nil =>
      obtain ⟨rfl, rfl⟩ := Prod.mk.inj (Option.some.inj hr)
      exact ⟨[], .done, rfl⟩
    | cons line lines ih =>
      rw [readLines_cons] at hr
      split at hr
      next => exact absurd hr (by simp)
      next hline =>
        obtain ⟨rfl, rfl⟩ := Prod.mk.inj (Option.some.inj hr)
        exact ⟨[], .damaged hline, rfl⟩
      next r hline =>
        obtain ⟨rs, hrs, rfl⟩ := ih hr
        exact ⟨r :: rs, .entered hline hrs, rfl⟩
  · rintro ⟨rs, hrs, rfl⟩
    induction hrs generalizing h with
    | done => rfl
    | damaged hline => rw [readLines_cons, hline, List.foldl_nil]
    | entered hline _ ih =>
      rw [readLines_cons, hline, List.foldl_cons]
      exact ih

/-- **What `read` does**: it enters the records of `Reads`, in order. -/
theorem read_eq_some_iff {csv : Option Str} {pw : Str} : h.read csv pw = some (b, h') ↔
    ∃ rs, Reads csv pw b rs ∧ h' = rs.foldl enter h := by
  have hnone : some (false, h) = some (b, h') ↔
      ∃ rs, (b = false ∧ rs = []) ∧ h' = rs.foldl enter h := by
    constructor
    · intro heq
      obtain ⟨rfl, rfl⟩ := Prod.mk.inj (Option.some.inj heq)
      exact ⟨[], ⟨rfl, rfl⟩, rfl⟩
    · rintro ⟨rs, ⟨rfl, rfl⟩, rfl⟩
      rfl
  cases csv with
  | none => exact hnone
  | some text =>
    unfold read Reads
    dsimp only
    generalize readInt pw = number
    match number with
    | none => simp
    | some (false, _) => exact hnone
    | some (true, password) => exact readLines_eq_some_iff

/-- The records of a file, under a password that is a number. -/
theorem reads_iff {text pw : Str} (hpw : strtoint pw = some (true, password)) :
    Reads (some text) pw b rs ↔ Indexable pw ∧ Loads password (tokens isSpace text) b rs := by
  rw [Reads, readInt]
  split_ifs with hindex
  · simp only [hpw, hindex, true_and]
  · simp only [hindex, false_and]

/-! ### A failed load -/

/-- Up to a damaged line, every line is complete. -/
theorem Loads.exists_damaged (hl : Loads password lines false rs) :
    ∃ pre line post, lines = pre ++ line :: post ∧ readLine password line = some none ∧
      List.Forall₂ (fun l r => readLine password l = some (some r)) pre rs := by
  generalize hb : false = b at hl
  induction hl with
  | done => exact absurd hb (by simp)
  | @damaged line lines h => exact ⟨[], line, lines, rfl, h, .nil⟩
  | @entered line lines r b rs h _ ih =>
    obtain ⟨pre, bad, post, rfl, hbad, hpre⟩ := ih hb
    exact ⟨line :: pre, bad, post, rfl, hbad, .cons h hpre⟩

/-- Keys that no record names keep their entries. -/
theorem findNode_foldl_enter (rs : List Record) (h : Hash) {k : Str} (hk : ∀ r ∈ rs, r.1 ≠ k) :
    (rs.foldl enter h).findNode k = h.findNode k := by
  induction rs generalizing h with
  | nil => rfl
  | cons r rs ih =>
    obtain ⟨hr, hrs⟩ := List.forall_mem_cons.mp hk
    rw [List.foldl_cons, ih _ hrs, enter, findNode_set, if_neg hr.symm]

/-- **A failed read** has entered the records in front of the damage, in order, and nothing else. -/
theorem read_failed {csv : Option Str} {pw : Str} (hr : h.read csv pw = some (false, h')) :
    ∃ rs, BeforeDamage csv pw rs ∧ h' = rs.foldl enter h ∧
      ∀ k, (∀ r ∈ rs, r.1 ≠ k) → h'.findNode k = h.findNode k := by
  obtain ⟨rs, hreads, rfl⟩ := read_eq_some_iff.mp hr
  refine ⟨rs, ?_, rfl, fun k hk => findNode_foldl_enter rs h hk⟩
  unfold Reads at hreads
  split at hreads
  next => exact Or.inl ⟨hreads.2, Or.inl rfl⟩
  next text =>
    split at hreads
    next => exact hreads.elim
    next x hpw => exact Or.inl ⟨hreads.2, Or.inr ⟨x, strtoint_of_readInt hpw⟩⟩
    next password hpw =>
      obtain ⟨pre, line, post, hlines, hbad, hpre⟩ := hreads.exists_damaged
      exact Or.inr ⟨text, password, pre, line, post, rfl, strtoint_of_readInt hpw, hlines, hbad, hpre⟩

/-- With the password `1`, the numbers of a line are its bytes: the record `0,0,0,k,v`, and a line that
is no number. -/
def damagedFile : Str := lit "48\\44\\48\\44\\48\\44\\107\\44\\118\\ x\\"

/-- The record in front of the damaged line. -/
theorem read_failed_damagedFile : ∃ h' rs, (new 8000).read (some damagedFile) (lit "1")
    = some (false, h') ∧ BeforeDamage (some damagedFile) (lit "1") rs ∧
      h' = rs.foldl enter (new 8000) := by
  obtain ⟨h', hr⟩ : ∃ h', (new 8000).read (some damagedFile) (lit "1") = some (false, h') := ⟨_, rfl⟩
  obtain ⟨rs, hrs, heq, -⟩ := read_failed hr
  exact ⟨h', rs, hr, hrs, heq⟩

/-- **A failed read can change the table.**  The first line is entered before the second one is found
to be damaged. -/
theorem not_unchanged_of_failed :
    (∃ h', (new 8000).read (some damagedFile) (lit "1") = some (false, h') ∧
      (h'.findNode (lit "k")).isSome = true) ∧
    ¬ ∀ (h h' : Hash) (csv : Option Str) (pw : Str), h.read csv pw = some (false, h') →
      ∀ k, h'.findNode k = h.findNode k := by
  obtain ⟨h', hr, hk⟩ : ∃ h', (new 8000).read (some damagedFile) (lit "1") = some (false, h') ∧
      (h'.findNode (lit "k")).isSome = true := ⟨_, rfl, rfl⟩
  refine ⟨⟨h', hr, hk⟩, fun h => ?_⟩
  rw [h _ _ _ _ hr] at hk
  exact absurd hk (by simp)

/-! ### One record -/

theorem strtoint_eq_none_iff {s : Str} : strtoint s = none ↔ s = [] := by
  constructor
  · intro hs
    by_contra hne
    obtain ⟨r, hr⟩ := strtoint_isSome hne
    rw [hs] at hr
    exact absurd hr (by simp)
  · rintro rfl
    rfl

theorem joinArgs_eq_nil_iff {arg : Str} {args : List Str} :
    joinArgs arg args = [] ↔ arg = [] ∧ args = [] := by
  rw [joinArgs_eq, merge_eq_nil]
  simp

/-- A collection is built of any text but the empty one. -/
theorem dataEncode_isSome_iff {x : Str} {dtype : Dtype} (hd : dtype ≠ .string) :
    (∃ value, Value.dataEncode x dtype = some value ∧ value.isUnset = false) ↔ x ≠ [] := by
  have hsplit : ∀ f : List Str → Value, (∀ l, (f l).isUnset = false) →
      ((∃ value, (Value.splitData x).map f = some value ∧ value.isUnset = false) ↔ x ≠ []) := by
    intro f hf
    rw [Value.splitData]
    by_cases hx : x = []
    · simp [hx]
    · simp [hx, hf]
  cases dtype with
  | string => exact absurd rfl hd
  | list => exact hsplit _ fun _ => rfl
  | set => exact hsplit _ fun _ => rfl
  | hashmap => exact hsplit _ fun _ => rfl

/-- The values that are built without a fault. -/
theorem readValue_isSome_iff {dtype : Int} {arg : Str} {args : List Str} :
    (∃ value, readValue dtype arg args = some value ∧ value.isUnset = false) ↔
      (0 ≤ dtype ∧ dtype ≤ 3) ∧ (dtype = 0 ∨ arg ≠ [] ∨ args ≠ []) := by
  have hne : joinArgs arg args ≠ [] ↔ arg ≠ [] ∨ args ≠ [] := by
    rw [Ne, joinArgs_eq_nil_iff, not_and_or]
  unfold readValue
  split_ifs with h0 h1 h2 h3
  · subst h0
    exact iff_of_true ⟨_, rfl, rfl⟩ ⟨by omega, Or.inl rfl⟩
  · rw [dataEncode_isSome_iff (by simp), hne, or_iff_right h0, and_iff_right (by omega)]
  · rw [dataEncode_isSome_iff (by simp), hne, or_iff_right h0, and_iff_right (by omega)]
  · rw [dataEncode_isSome_iff (by simp), hne, or_iff_right h0, and_iff_right (by omega)]
  · -- an unknown type code leaves the value as it was declared, which is unset
    refine iff_of_false ?_ (by omega)
    rintro ⟨value, hvalue, hset⟩
    obtain rfl := Option.some.inj hvalue
    exact absurd hset (by decide)

/-- **A message is read without a fault, into a value that is set, exactly when it is harmless.** -/
theorem readRecord_safe_iff :
    (readRecord message ≠ none ∧ ∀ r, readRecord message = some (some r) → r.2.1.isUnset = false) ↔
      HarmlessRecord message := by
  unfold readRecord HarmlessRecord
  generalize split message (byte ',') = fields
  have hshort : ∀ {P : Record → Prop}, ((some none : Option (Option Record)) ≠ none ∧
      ∀ r, (some none : Option (Option Record)) = some (some r) → P r) ↔ True := by simp
  match fields with
  | [] => exact hshort
  | [_] => exact hshort
  | [_, _] => exact hshort
  | [_, _, _] => exact hshort
  | [_, _, _, _] => exact hshort
  | a0 :: a1 :: a2 :: key :: arg :: args =>
    dsimp only
    -- `strtoint` is a fault on an empty field, whatever the other fields are
    rcases h0 : strtoint a0 with _ | ⟨b0, dtype⟩
    · rw [strtoint_eq_none_iff] at h0
      simp [h0]
    rcases h1 : strtoint a1 with _ | ⟨b1, authw⟩
    · rw [strtoint_eq_none_iff] at h1
      simp [h1]
    rcases h2 : strtoint a2 with _ | ⟨b2, authr⟩
    · rw [strtoint_eq_none_iff] at h2
      simp [h2]
    have hne : a0 ≠ [] ∧ a1 ≠ [] ∧ a2 ≠ [] := by
      refine ⟨fun h => ?_, fun h => ?_, fun h => ?_⟩
      · exact absurd (strtoint_eq_none_iff.mpr h) (by simp [h0])
      · exact absurd (strtoint_eq_none_iff.mpr h) (by simp [h1])
      · exact absurd (strtoint_eq_none_iff.mpr h) (by simp [h2])
    have hrange : ¬ (dtype < 0 ∧ dtype > 3) := by omega
    rw [and_iff_right hne]
    by_cases hb : b0 = true ∧ b1 = true ∧ b2 = true
    · obtain ⟨rfl, rfl, rfl⟩ := hb
      have hvalue : (∀ x y z : Int, some (true, dtype) = some (true, x) →
          some (true, authw) = some (true, y) → some (true, authr) = some (true, z) →
            (0 ≤ x ∧ x ≤ 3) ∧ (x = 0 ∨ arg ≠ [] ∨ args ≠ [])) ↔
          ∃ value, readValue dtype arg args = some value ∧ value.isUnset = false := by
        rw [readValue_isSome_iff]
        simp
      rw [hvalue]
      dsimp only
      rw [if_neg (by simpa using hrange)]
      cases readValue dtype arg args with
      | none => simp
      | some value => simp
    · -- one of the three is no number, so the line is damaged
      have hdamaged : (!b0 || !b1 || !b2 || (dtype < 0 && dtype > 3)) = true := by
        revert hb
        cases b0 <;> cases b1 <;> cases b2 <;> simp
      refine iff_of_true ?_ ?_
      · simp [hdamaged]
      · rintro x y z hx hy hz
        exact absurd ⟨congrArg Prod.fst (Option.some.inj hx), congrArg Prod.fst (Option.some.inj hy),
          congrArg Prod.fst (Option.some.inj hz)⟩ hb

/-- A complete record is read, unless its value is a fault. -/
theorem readRecord_of_fields {a0 a1 a2 key arg : Str} {args : List Str} {dtype authw authr : Int}
    (hsplit : split message (byte ',') = a0 :: a1 :: a2 :: key :: arg :: args)
    (h0 : strtoint a0 = some (true, dtype)) (h1 : strtoint a1 = some (true, authw))
    (h2 : strtoint a2 = some (true, authr)) :
    readRecord message = (readValue dtype arg args).map fun value =>
      some (key, value, toU8 authr, toU8 authw) := by
  have hrange : ¬ (dtype < 0 ∧ dtype > 3) := by omega
  unfold readRecord
  simp only [hsplit, h0, h1, h2]
  rw [if_neg (by simpa using hrange)]

/-- What is read was in the fields of the record. -/
theorem readRecord_eq_some (hr : readRecord message = some (some r)) :
    ∃ a0 a1 a2 arg args dtype authw authr,
      split message (byte ',') = a0 :: a1 :: a2 :: r.1 :: arg :: args ∧
        strtoint a0 = some (true, dtype) ∧ strtoint a1 = some (true, authw) ∧
        strtoint a2 = some (true, authr) ∧ readValue dtype arg args = some r.2.1 ∧
        r.2.2 = (toU8 authr, toU8 authw) := by
  unfold readRecord at hr
  split at hr
  next a0 a1 a2 key arg args hsplit =>
    split at hr
    next b0 dtype b1 authw b2 authr h0 h1 h2 =>
      split_ifs at hr with hbad
      · exact absurd hr (by simp)
      · obtain ⟨value, hvalue, hr⟩ := Option.map_eq_some_iff.mp hr
        obtain rfl := Option.some.inj hr
        obtain ⟨rfl, rfl, rfl⟩ : b0 = true ∧ b1 = true ∧ b2 = true := by
          revert hbad
          cases b0 <;> cases b1 <;> cases b2 <;> simp
        exact ⟨a0, a1, a2, arg, args, dtype, authw, authr, hsplit, h0, h1, h2, hvalue, rfl⟩
    next => exact absurd hr (by simp)
  next => exact absurd hr (by simp)

theorem completeRecord_of_read (hr : readRecord message = some (some r)) :
    CompleteRecord message := by
  obtain ⟨a0, a1, a2, arg, args, _, _, _, hsplit, h0, h1, h2, -⟩ := readRecord_eq_some hr
  rw [CompleteRecord, hsplit]
  exact ⟨⟨_, h0⟩, ⟨_, h1⟩, ⟨_, h2⟩⟩

theorem CompleteRecord.not_damaged (hc : CompleteRecord message) :
    readRecord message ≠ some none := by
  rw [CompleteRecord] at hc
  split at hc
  next hsplit =>
    obtain ⟨⟨_, h0⟩, ⟨_, h1⟩, ⟨_, h2⟩⟩ := hc
    rw [readRecord_of_fields hsplit h0 h1 h2]
    simp
  next => exact hc.elim

/-! ### One line -/

theorem readLine_of_decryptLine (hm : decryptLine password line = some (some message)) :
    readLine password line = readRecord message := by
  rw [readLine, hm]

theorem complete_of_readLine (hr : readLine password line = some (some r)) :
    Complete password line := by
  have hdec := hr
  rw [readLine] at hdec
  split at hdec
  next => exact absurd hdec (by simp)
  next => exact absurd hdec (by simp)
  next message hm => exact ⟨message, hm, completeRecord_of_read hdec⟩

theorem Complete.not_damaged (hc : Complete password line) :
    readLine password line ≠ some none := by
  obtain ⟨message, hm, hrecord⟩ := hc
  rw [readLine_of_decryptLine hm]
  exact hrecord.not_damaged

/-- A piece is read unless it is empty or too long. -/
theorem readInt_eq_none_iff {piece : Str} : readInt piece = none ↔ piece = [] ∨ ¬ Indexable piece := by
  rw [readInt]
  split_ifs with h
  · rw [strtoint_eq_none_iff, or_iff_left (not_not.mpr h)]
  · exact iff_of_true rfl (Or.inr h)

/-- Decrypting faults exactly at a piece that cannot be read, unless a piece in front of it is no
number. -/
theorem decryptPieces_eq_none_iff {pieces : List Str} : decryptPieces password pieces = none ↔
    ∃ pre piece post, pieces = pre ++ piece :: post ∧ (piece = [] ∨ ¬ Indexable piece) ∧
      ∀ x ∈ pre, IsInt x := by
  induction pieces with
  | nil => simp [decryptPieces]
  | cons piece pieces ih =>
    have hcons : (∃ pre bad post, piece :: pieces = pre ++ bad :: post ∧ (bad = [] ∨ ¬ Indexable bad) ∧
          ∀ x ∈ pre, IsInt x) ↔
        readInt piece = none ∨ (IsInt piece ∧ ∃ pre bad post, pieces = pre ++ bad :: post ∧
          (bad = [] ∨ ¬ Indexable bad) ∧ ∀ x ∈ pre, IsInt x) := by
      rw [readInt_eq_none_iff]
      constructor
      · rintro ⟨pre, bad, post, heq, hbad, hpre⟩
        cases pre with
        | nil =>
          obtain ⟨rfl, -⟩ := List.cons.inj heq
          exact Or.inl hbad
        | cons x pre =>
          obtain ⟨rfl, rfl⟩ := List.cons.inj heq
          obtain ⟨hx, hpre⟩ := List.forall_mem_cons.mp hpre
          exact Or.inr ⟨hx, pre, bad, post, rfl, hbad, hpre⟩
      · rintro (hbad | ⟨hx, pre, bad, post, rfl, hbad, hpre⟩)
        · exact ⟨[], piece, pieces, rfl, hbad, by simp⟩
        · exact ⟨piece :: pre, bad, post, rfl, hbad, List.forall_mem_cons.mpr ⟨hx, hpre⟩⟩
    rw [hcons, ← ih, decryptPieces]
    rcases hp : readInt piece with _ | ⟨b, x⟩
    · exact iff_of_true rfl (Or.inl rfl)
    have hint := strtoint_of_readInt hp
    cases b with
    | false => simp [IsInt, hint]
    | true => simp [IsInt, hint]

/-- **A line is read without a fault, into a value that is set, exactly when it is harmless.** -/
theorem readLine_safe_iff : (readLine password line ≠ none ∧
    ∀ r, readLine password line = some (some r) → r.2.1.isUnset = false) ↔
      HarmlessLine password line := by
  have hpieces : (Splittable line (byte '\\') ∧
      ∀ pre piece post, (split line (byte '\\')).dropLast = pre ++ piece :: post →
        piece = [] ∨ ¬ Indexable piece → ∃ x ∈ pre, ¬ IsInt x) ↔ decryptLine password line ≠ none := by
    rw [decryptLine, splitArray]
    by_cases hfits : Splittable line (byte '\\')
    · rw [and_iff_right hfits, if_pos hfits, Option.bind_some, Ne, Option.map_eq_none_iff,
        decryptPieces_eq_none_iff]
      push Not
      exact Iff.rfl
    · rw [if_neg hfits, Option.bind_none]
      exact iff_of_false (fun h => hfits h.1) (fun h => h rfl)
  rw [HarmlessLine, ← and_assoc, hpieces, readLine]
  cases decryptLine password line with
  | none => simp
  | some message? =>
    cases message? with
    | none => simp
    | some message => simp [← readRecord_safe_iff]

/-! ### The file -/

/-- What is asked of the elements that are reached, over those that let the reading go on. -/
theorem forall_reached_cons {α : Type} {P Q : α → Prop} {x : α} {xs : List α} :
    (∀ pre y post, x :: xs = pre ++ y :: post → (∀ z ∈ pre, P z) → Q y) ↔
      Q x ∧ (P x → ∀ pre y post, xs = pre ++ y :: post → (∀ z ∈ pre, P z) → Q y) := by
  constructor
  · intro h
    refine ⟨h [] x xs rfl (by simp), fun hx pre y post heq hpre => ?_⟩
    exact h (x :: pre) y post (by rw [heq]; rfl) (List.forall_mem_cons.mpr ⟨hx, hpre⟩)
  · rintro ⟨hx, hrest⟩ pre y post heq hpre
    cases pre with
    | nil =>
      obtain ⟨rfl, -⟩ := List.cons.inj heq
      exact hx
    | cons z pre =>
      obtain ⟨rfl, hxs⟩ := List.cons.inj heq
      obtain ⟨hz, hpre⟩ := List.forall_mem_cons.mp hpre
      exact hrest hz pre y post hxs hpre

/-- The lines are read without a fault exactly when every line that is reached is harmless. -/
theorem loads_safe_iff : (∃ b rs, Loads password lines b rs ∧ ∀ r ∈ rs, r.2.1.isUnset = false) ↔
    ∀ pre line post, lines = pre ++ line :: post → (∀ l ∈ pre, Complete password l) →
      HarmlessLine password line := by
  induction lines with
  | nil => exact iff_of_true ⟨true, [], .done, by simp⟩ fun pre line post h => absurd h (by simp)
  | cons line lines ih =>
    -- the lines behind this one are reached when it is complete
    rw [forall_reached_cons, ← ih, ← readLine_safe_iff]
    constructor
    · rintro ⟨b, rs, hl, hset⟩
      -- a damaged line ends the reading, so nothing behind it is reached
      cases hl with
      | damaged hline => exact ⟨by simp [hline], fun hc => absurd hline hc.not_damaged⟩
      | entered hline hrest =>
        obtain ⟨hr, hrs⟩ := List.forall_mem_cons.mp hset
        refine ⟨⟨by simp [hline], fun r' hr' => ?_⟩, fun _ => ⟨_, _, hrest, hrs⟩⟩
        rw [hline, Option.some.injEq, Option.some.injEq] at hr'
        exact hr' ▸ hr
    · rintro ⟨⟨hne, hset⟩, hrest⟩
      match hline : readLine password line with
      | none => exact absurd hline hne
      | some none => exact ⟨false, [], .damaged hline, by simp⟩
      | some (some r) =>
        obtain ⟨b, rs, hl, hrs⟩ := hrest (complete_of_readLine hline)
        exact ⟨b, r :: rs, .entered hline hl, List.forall_mem_cons.mpr ⟨hset r hline, hrs⟩⟩

/-- **Reading a file is safe exactly when** the digits of the password can be counted and every line that
is reached is harmless. -/
theorem safelyReads_iff {text pw : Str} (hpw : strtoint pw = some (true, password)) :
    h.SafelyReads (some text) pw ↔ Indexable pw ∧ HarmlessFile password text := by
  rw [HarmlessFile, ← loads_safe_iff]
  constructor
  · rintro ⟨b, rs, hr, -, hset⟩
    obtain ⟨hindex, hl⟩ := (reads_iff hpw).mp hr
    exact ⟨hindex, b, rs, hl, hset⟩
  · rintro ⟨hindex, b, rs, hl, hset⟩
    have hr := (reads_iff hpw).mpr ⟨hindex, hl⟩
    exact ⟨b, rs, hr, read_eq_some_iff.mpr ⟨rs, hr, rfl⟩, hset⟩

/-- A file with a record of the type code `7`, under the password `1`. -/
def foreignFile : Str := lit "55\\44\\48\\44\\48\\44\\107\\44\\118\\"

/-- A file with the record `0,0,0,k,v`, under the password `1`. -/
def recordFile : Str := lit "48\\44\\48\\44\\48\\44\\107\\44\\118\\"

/-- The record is entered. -/
theorem safelyReads_recordFile : (new 8000).SafelyReads (some recordFile) (lit "1") := by
  have hpw : strtoint (lit "1") = some (true, 1) := by decide
  refine (safelyReads_iff hpw).mpr ⟨by decide, fun pre line post heq _ => ?_⟩
  have hlines : tokens isSpace recordFile = [recordFile] := rfl
  have hmem : line ∈ tokens isSpace recordFile := by
    rw [heq]
    simp
  rw [hlines] at hmem
  obtain rfl := List.mem_singleton.mp hmem
  have hline : readLine 1 recordFile = some (some (lit "k", .string (lit "v"), 0, 0)) := rfl
  refine readLine_safe_iff.mp ⟨by simp [hline], fun r hr => ?_⟩
  rw [hline, Option.some.injEq, Option.some.injEq] at hr
  rw [← hr]
  rfl

/-- **Reading is not safe.**  An empty piece makes `strtoint` throw, and the type code `7` enters the
default value. -/
theorem not_safelyReads :
    (new 8000).read (some (lit "\\")) (lit "1") = none ∧
    (∃ h', (new 8000).read (some foreignFile) (lit "1") = some (true, h') ∧
      ((h'.findNode (lit "k")).any fun n => n.v.isUnset) = true) ∧
    ¬ ∀ (h : Hash) (text pw : Str) (d : Int), strtoint pw = some (true, d) →
      h.SafelyReads (some text) pw := by
  have hfault : (new 8000).read (some (lit "\\")) (lit "1") = none := rfl
  refine ⟨hfault, ⟨_, rfl, rfl⟩, fun h => ?_⟩
  obtain ⟨b, rs, -, hr, -⟩ := h (new 8000) (lit "\\") (lit "1") 1 (by decide)
  rw [hfault] at hr
  exact absurd hr (by simp)

end Hash

end MuseKv
