import MuseKv.Command.Equiv.Execute
import MuseKv.Command.Equiv.RoundTrip

/-!
# `sort`

`sort` prints the elements, cuts the print at its commas and sorts the pieces.  The pieces are those of
the elements (`splitOn_merge`), so the reply lists the elements in order exactly when something was
printed that `split` can count, and sorting the elements puts their pieces in order as well
(`sorts_iff`).  A list that was
emptied is cut into an array that was never allocated (`not_sorts_empty`).
-/

namespace MuseKv

open Kvstore Command

/-! ### Sorting -/

/-- The elements of a list or a set, in the order in which they are printed. -/
def Value.elements : Value → Option (List Str)
  | list l => some l
  | set s => some s.elements
  | _ => none

namespace Command

/-- The elements in ascending order, joined by commas. -/
def ListsInOrder (els : List Str) (msg : Str) : Prop :=
  ∃ sorted : List Str, sorted.Perm els ∧ sorted.Pairwise (· ≤ ·) ∧ msg = merge (byte ',') sorted

/-- The pieces between the commas of the elements, the elements taken in ascending order. -/
def piecesInOrder (els : List Str) : List Str :=
  (els.insertionSort (· ≤ ·)).flatMap fun x => x.splitOn (byte ',')

/-- There is one way to put elements in order. -/
theorem listsInOrder_iff {els : List Str} {msg : Str} :
    ListsInOrder els msg ↔ msg = merge (byte ',') (els.insertionSort (· ≤ ·)) := by
  constructor
  · rintro ⟨sorted, hperm, hsorted, rfl⟩
    have heq : sorted = els.insertionSort (· ≤ ·) :=
      List.Perm.eq_of_pairwise (fun _ _ _ _ => List.le_antisymm) hsorted
        (List.pairwise_insertionSort (· ≤ ·) els)
        (hperm.trans (List.perm_insertionSort (· ≤ ·) els).symm)
    rw [heq]
  · rintro rfl
    exact ⟨_, List.perm_insertionSort (· ≤ ·) els, List.pairwise_insertionSort (· ≤ ·) els, rfl⟩

/-- The pieces that are sorted are those of the elements in order, in some order. -/
theorem piecesInOrder_perm (els : List Str) :
    (piecesInOrder els).Perm (els.flatMap fun x => x.splitOn (byte ',')) :=
  (List.perm_insertionSort (· ≤ ·) els).flatMap_right _

/-- What `sort` makes of a print. -/
theorem sortPrint_merge {els : List Str} (h : merge (byte ',') els ≠ [])
    (hfits : Splittable (merge (byte ',') els) (byte ',')) :
    sortPrint (merge (byte ',') els) =
      some (merge (byte ',') ((els.flatMap fun x => x.splitOn (byte ',')).insertionSort (· ≤ ·))) := by
  have hne : els ≠ [] := fun hnil => h (by rw [hnil]; rfl)
  rw [sortPrint, if_neg h, splitArray, if_pos hfits, Option.map_some, split_of_ne_nil h,
    splitOn_merge (byte ',') hne]

/-- Sorting the pieces sorts the elements exactly when the pieces of the sorted elements are sorted. -/
theorem sortPrint_inOrder_iff {els : List Str} (h : merge (byte ',') els ≠ [])
    (hfits : Splittable (merge (byte ',') els) (byte ',')) :
    sortPrint (merge (byte ',') els) = some (merge (byte ',') (els.insertionSort (· ≤ ·))) ↔
      (piecesInOrder els).Pairwise (· ≤ ·) := by
  have hne : els ≠ [] := fun hnil => h (by rw [hnil]; rfl)
  have hperm := List.perm_insertionSort (· ≤ ·) (els.flatMap fun x => x.splitOn (byte ','))
  have hsorted := List.pairwise_insertionSort (· ≤ ·) (els.flatMap fun x => x.splitOn (byte ','))
  have hpieces : piecesInOrder els ≠ [] := fun hnil =>
    flatMap_splitOn_ne_nil hne (List.perm_nil.mp (hnil ▸ (piecesInOrder_perm els).symm))
  have hleft : (els.flatMap fun x => x.splitOn (byte ',')).insertionSort (· ≤ ·) ≠ [] := fun hnil =>
    flatMap_splitOn_ne_nil hne (List.perm_nil.mp (hnil ▸ hperm.symm))
  rw [sortPrint_merge h hfits, Option.some_inj, ← merge_flatMap_splitOn (byte ',') (els.insertionSort _),
    ← piecesInOrder, merge_inj_of_free hleft hpieces
      (fun x hx => free_of_mem_flatMap_splitOn x (hperm.mem_iff.mp hx))
      free_of_mem_flatMap_splitOn]
  constructor
  · intro heq
    rw [← heq]
    exact hsorted
  · intro hpair
    exact List.Perm.eq_of_pairwise (fun _ _ _ _ => List.le_antisymm) hsorted hpair
      (hperm.trans (piecesInOrder_perm els).symm)

/-! ### The command -/

variable {com k : Str} {a : UInt8} {t : Int} {w : World} {n : Kv} {els : List Str}

/-- `sort` on an entry that it may read. -/
theorem sort_eq (hlive : n.isExpired t = false) (hr : n.authr ≤ a) (hels : n.v.elements = some els) :
    sort ⟨k, [], a, t⟩ (some n) =
      (sortPrint (merge (byte ',') els)).map fun s => (s, .keep) := by
  rw [sort, live_of_not_expired (c := ⟨k, [], a, t⟩) hlive]
  cases hv : n.v with
  | list l =>
    rw [hv] at hels
    obtain rfl := Option.some.inj hels
    dsimp only
    rw [permitted_of_le (c := ⟨k, [], a, t⟩) hr, Linkedlist.print]
  | set s =>
    rw [hv] at hels
    obtain rfl := Option.some.inj hels
    dsimp only
    rw [permitted_of_le (c := ⟨k, [], a, t⟩) hr, Hashset.print_eq]
  | string | hashmap | unset =>
    rw [hv] at hels
    exact absurd hels (by simp [Value.elements])

theorem execute_sort (hcom : words com = [lit "sort", k]) (hhere : notHere w.h k = false)
    (hnode : w.h.findNode k = some n) (hlive : n.isExpired t = false) (hr : n.authr ≤ a)
    (hels : n.v.elements = some els) :
    execute com a t w = (sortPrint (merge (byte ',') els)).map fun s => (s, w) := by
  have hrun : execute com a t w = (sort ⟨k, [], a, t⟩ (w.h.findNode k)).bind fun r =>
      (w.h.apply k r.2).map fun h => (r.1, { w with h := h }) := by
    rw [execute, hcom, executeWords_keyed (by decide) hhere rfl]
  rw [hrun, hnode, sort_eq hlive hr hels]
  cases sortPrint (merge (byte ',') els) with
  | none => rfl
  | some s => rfl

/-- **`sort` answers with the elements in order, and leaves everything as it is, if and only if** the
collection is neither empty nor made of one empty element, `split` can count the pieces of its print, and
the pieces of the sorted elements are sorted. -/
theorem sorts_iff (hcom : words com = [lit "sort", k]) (hhere : notHere w.h k = false)
    (hnode : w.h.findNode k = some n) (hlive : n.isExpired t = false) (hr : n.authr ≤ a)
    (hels : n.v.elements = some els) :
    (∃ msg, ListsInOrder els msg ∧ execute com a t w = some (msg, w)) ↔
      els ≠ [] ∧ els ≠ [[]] ∧ Splittable (merge (byte ',') els) (byte ',') ∧
        (piecesInOrder els).Pairwise (· ≤ ·) := by
  rw [execute_sort hcom hhere hnode hlive hr hels, ← and_assoc, ← not_or, ← merge_eq_nil]
  by_cases hprint : merge (byte ',') els = []
  · -- the pointer that `split` should have set is unset
    rw [hprint]
    refine iff_of_false ?_ fun h => h.1 rfl
    rintro ⟨msg, -, hmsg⟩
    exact absurd hmsg (by simp [sortPrint])
  rw [and_iff_right hprint]
  by_cases hfits : Splittable (merge (byte ',') els) (byte ',')
  swap
  · -- the count of the pieces overflows
    refine iff_of_false ?_ fun h => hfits h.1
    rintro ⟨msg, -, hmsg⟩
    rw [sortPrint, if_neg hprint, splitArray, if_neg hfits] at hmsg
    exact absurd hmsg (by simp)
  · rw [and_iff_right hfits, ← sortPrint_inOrder_iff hprint hfits, sortPrint_merge hprint hfits]
    constructor
    · rintro ⟨msg, horder, hmsg⟩
      rw [listsInOrder_iff] at horder
      rw [Option.map_some, Option.some_inj, Prod.mk.injEq] at hmsg
      rw [hmsg.1, horder]
    · intro hmsg
      rw [hmsg]
      exact ⟨_, listsInOrder_iff.mpr rfl, rfl⟩

/-- Texts without a comma are their own pieces. -/
theorem piecesInOrder_of_free (h : ∀ x ∈ els, byte ',' ∉ x) :
    (piecesInOrder els).Pairwise (· ≤ ·) := by
  rw [piecesInOrder, flatMap_splitOn_of_free fun x hx =>
    h x ((List.perm_insertionSort (· ≤ ·) els).mem_iff.mp hx)]
  exact List.pairwise_insertionSort (· ≤ ·) els

/-- A list of two elements is sorted. -/
theorem sorts_pair : ∃ w n, runAll [⟨lit "lmake k b a", 0, 0⟩] (World.fresh 8000)
      = some ([lit "2"], w) ∧ w.h.findNode (lit "k") = some n ∧
    ∃ msg, ListsInOrder [lit "b", lit "a"] msg ∧ execute (lit "sort k") 0 0 w = some (msg, w) := by
  obtain ⟨w, n, hrun, hnode, hhere, hlive, hr, hels⟩ : ∃ w n,
      runAll [⟨lit "lmake k b a", 0, 0⟩] (World.fresh 8000) = some ([lit "2"], w) ∧
        w.h.findNode (lit "k") = some n ∧ notHere w.h (lit "k") = false ∧
        n.isExpired 0 = false ∧ n.authr ≤ 0 ∧ n.v.elements = some [lit "b", lit "a"] :=
    ⟨_, _, rfl, rfl, rfl, rfl, by decide, rfl⟩
  have hwords : words (lit "sort k") = [lit "sort", lit "k"] := rfl
  refine ⟨w, n, hrun, hnode, (sorts_iff hwords hhere hnode hlive hr hels).mpr ⟨by simp, by decide, by decide, ?_⟩⟩
  exact piecesInOrder_of_free (by decide)

/-- **An emptied list faults.**  After its only element is popped, `sort` uses an array that was never
allocated. -/
theorem not_sorts_empty : ¬ ∀ (rs : List Request) (replies : List Str) (w : World) (com k : Str)
    (a : UInt8) (t : Int) (n : Kv) (els : List Str),
    runAll rs (World.fresh 8000) = some (replies, w) → words com = [lit "sort", k] →
    notHere w.h k = false → w.h.findNode k = some n → n.isExpired t = false → n.authr ≤ a →
    n.v.elements = some els →
    ∃ msg, ListsInOrder els msg ∧ execute com a t w = some (msg, w) := by
  intro h
  obtain ⟨w, n, hrun, hnode, hhere, hlive, hr, hels, hfault⟩ : ∃ w n,
      runAll [⟨lit "lmake k a", 0, 0⟩, ⟨lit "lpop k", 0, 0⟩] (World.fresh 8000)
          = some ([lit "1", lit "a"], w) ∧
        w.h.findNode (lit "k") = some n ∧ notHere w.h (lit "k") = false ∧
        n.isExpired 0 = false ∧ n.authr ≤ 0 ∧ n.v.elements = some [] ∧
        execute (lit "sort k") 0 0 w = none :=
    ⟨_, _, rfl, rfl, rfl, rfl, by decide, rfl, rfl⟩
  obtain ⟨msg, -, hmsg⟩ := h _ _ _ (lit "sort k") (lit "k") 0 0 _ _ hrun rfl hhere hnode hlive hr hels
  rw [hfault] at hmsg
  exact absurd hmsg (by simp)

end Command

end MuseKv
