import Mathlib.Data.List.Nodup
import Mathlib.Logic.Function.Basic

/-!
# Bucket tables

A bucket table is a family `b : ι → List α` of buckets; `key a` is the key of an entry and `slot k`
the bucket of a key.  `Buckets.WF` says that every entry sits in the bucket of its key and that no
key occurs twice in a bucket; then `Buckets.find` determines the entry of a key
(`find_eq_some_iff`), and adding, erasing and altering an entry act on `find` as on a finite map and
keep the table well formed.  `Buckets.filter` keeps the entries that pass a test; what the operations
do to the other entries does not show behind it.
-/

namespace MuseKv.General.Buckets

variable {ι κ α : Type*} (slot : κ → ι) (key : α → κ)

/-- Every entry sits in the bucket of its key, and no key occurs twice in a bucket. -/
structure WF (b : ι → List α) : Prop where
  placed : ∀ i, ∀ a ∈ b i, slot (key a) = i
  nodup : ∀ i, ((b i).map key).Nodup

variable {slot key} in
/-- The keys of several buckets are distinct. -/
theorem WF.nodup_flatMap {b : ι → List α} (h : WF slot key b) {is : List ι} (his : is.Nodup) :
    (is.flatMap fun i => (b i).map key).Nodup := by
  rw [List.nodup_flatMap]
  refine ⟨fun i _ => h.nodup i, his.imp ?_⟩
  intro i j hij k hi hj
  obtain ⟨a, ha, rfl⟩ := List.mem_map.mp hi
  obtain ⟨a', ha', heq⟩ := List.mem_map.mp hj
  -- one key, one bucket
  apply hij
  rw [← h.placed i a ha, ← h.placed j a' ha', heq]

variable [DecidableEq κ]

/-- The first entry with key `k` in the bucket of `k`. -/
def find (b : ι → List α) (k : κ) : Option α := (b (slot k)).find? (fun a => key a = k)

variable {slot key} {b : ι → List α}

/-! ### Looking up -/

theorem find_key {k : κ} {a : α} (h : find slot key b k = some a) : key a = k := by
  simpa using List.find?_some h

theorem find_mem {k : κ} {a : α} (h : find slot key b k = some a) : a ∈ b (slot k) :=
  List.mem_of_find?_eq_some h

theorem find_eq_none_iff {k : κ} : find slot key b k = none ↔ ∀ a ∈ b (slot k), key a ≠ k := by
  rw [find, List.find?_eq_none]
  simp

variable (key) in
/-- With distinct keys, `find?` by key returns any given entry. -/
theorem find?_eq_some_of_mem {l : List α} (hl : (l.map key).Nodup) {a : α} (ha : a ∈ l) :
    l.find? (fun c => key c = key a) = some a := by
  induction l with
  | nil => simp at ha
  | cons c l ih =>
    rw [List.map_cons, List.nodup_cons] at hl
    rcases List.mem_cons.mp ha with rfl | hmem
    · simp
    · have hne : key c ≠ key a := by
        intro h
        exact hl.1 (h ▸ List.mem_map_of_mem hmem)
      rw [List.find?_cons_of_neg (by simpa using hne)]
      exact ih hl.2 hmem

/-- In a well formed table, looking up a key finds an entry iff the entry is stored under it. -/
theorem WF.find_eq_some_iff (h : WF slot key b) {k : κ} {a : α} :
    find slot key b k = some a ↔ key a = k ∧ ∃ i, a ∈ b i := by
  constructor
  · exact fun hf => ⟨find_key hf, _, find_mem hf⟩
  · rintro ⟨rfl, i, hi⟩
    have hslot := h.placed i a hi
    rw [find, hslot]
    exact find?_eq_some_of_mem key (h.nodup i) hi

theorem WF.find_of_mem (h : WF slot key b) {i : ι} {a : α} (ha : a ∈ b i) :
    find slot key b (key a) = some a :=
  h.find_eq_some_iff.mpr ⟨rfl, i, ha⟩

/-! ### The operations -/

variable [DecidableEq ι]

variable (slot key) in
/-- Add an entry at the front of its bucket. -/
def push (b : ι → List α) (a : α) : ι → List α :=
  Function.update b (slot (key a)) (a :: b (slot (key a)))

variable (slot key) in
/-- Add an entry at the end of its bucket. -/
def append (b : ι → List α) (a : α) : ι → List α :=
  Function.update b (slot (key a)) (b (slot (key a)) ++ [a])

variable (slot key) in
/-- Remove the first entry with key `k` from the bucket of `k`. -/
def erase (b : ι → List α) (k : κ) : ι → List α :=
  Function.update b (slot k) ((b (slot k)).eraseP (fun a => key a = k))

variable (slot key) in
/-- Apply `f` to the entries with key `k` in the bucket of `k`. -/
def alter (b : ι → List α) (k : κ) (f : α → α) : ι → List α :=
  Function.update b (slot k) ((b (slot k)).map fun a => if key a = k then f a else a)

/-! ### Adding an entry -/

theorem find_push (a : α) (k : κ) :
    find slot key (push slot key b a) k = if key a = k then some a else find slot key b k := by
  rw [find, push]
  by_cases hslot : slot k = slot (key a)
  · rw [hslot, Function.update_self]
    split_ifs with h
    · simp [h]
    · rw [List.find?_cons_of_neg (by simpa using h), find, hslot]
  · rw [Function.update_of_ne hslot, if_neg fun h => hslot (by rw [h]), find]

theorem WF.push (h : WF slot key b) {a : α} (hnew : find slot key b (key a) = none) :
    WF slot key (push slot key b a) := by
  constructor
  · intro i c hc
    rw [Buckets.push] at hc
    rcases eq_or_ne i (slot (key a)) with rfl | hi
    · rw [Function.update_self, List.mem_cons] at hc
      rcases hc with rfl | hc
      · rfl
      · exact h.placed _ c hc
    · rw [Function.update_of_ne hi] at hc
      exact h.placed i c hc
  · intro i
    rw [Buckets.push]
    rcases eq_or_ne i (slot (key a)) with rfl | hi
    · rw [Function.update_self, List.map_cons, List.nodup_cons]
      refine ⟨fun hmem => ?_, h.nodup _⟩
      obtain ⟨c, hc, hkey⟩ := List.mem_map.mp hmem
      exact find_eq_none_iff.mp hnew c hc hkey
    · rw [Function.update_of_ne hi]
      exact h.nodup i

theorem WF.append (h : WF slot key b) {a : α} (hnew : find slot key b (key a) = none) :
    WF slot key (append slot key b a) := by
  constructor
  · intro i c hc
    rw [Buckets.append] at hc
    rcases eq_or_ne i (slot (key a)) with rfl | hi
    · rw [Function.update_self, List.mem_append, List.mem_singleton] at hc
      rcases hc with hc | rfl
      · exact h.placed _ c hc
      · rfl
    · rw [Function.update_of_ne hi] at hc
      exact h.placed i c hc
  · intro i
    rw [Buckets.append]
    rcases eq_or_ne i (slot (key a)) with rfl | hi
    · rw [Function.update_self, List.map_append, List.map_singleton]
      refine List.nodup_append.mpr ⟨h.nodup _, List.nodup_singleton _, ?_⟩
      intro k hk k' hk' heq
      rw [List.mem_singleton] at hk'
      obtain ⟨c, hc, hkey⟩ := List.mem_map.mp hk
      exact find_eq_none_iff.mp hnew c hc (by rw [hkey, heq, hk'])
    · rw [Function.update_of_ne hi]
      exact h.nodup i

variable (key) in
omit [DecidableEq κ] in
theorem mem_append {a c : α} :
    (∃ i, c ∈ append slot key b a i) ↔ c = a ∨ ∃ i, c ∈ b i := by
  constructor
  · rintro ⟨i, hi⟩
    rw [Buckets.append] at hi
    rcases eq_or_ne i (slot (key a)) with rfl | hne
    · rw [Function.update_self, List.mem_append, List.mem_singleton] at hi
      rcases hi with hi | rfl
      · exact Or.inr ⟨_, hi⟩
      · exact Or.inl rfl
    · rw [Function.update_of_ne hne] at hi
      exact Or.inr ⟨i, hi⟩
  · rintro (rfl | ⟨i, hi⟩)
    · exact ⟨slot (key c), by simp [Buckets.append]⟩
    · refine ⟨i, ?_⟩
      rw [Buckets.append]
      rcases eq_or_ne i (slot (key a)) with rfl | hne
      · rw [Function.update_self]
        exact List.mem_append_left _ hi
      · rwa [Function.update_of_ne hne]

/-! ### Removing entries -/

omit [DecidableEq ι] [DecidableEq κ] in
/-- Removing entries keeps a table well formed. -/
theorem WF.sublist (h : WF slot key b) {b' : ι → List α} (hsub : ∀ i, (b' i).Sublist (b i)) :
    WF slot key b' where
  placed i a ha := h.placed i a ((hsub i).subset ha)
  nodup i := (h.nodup i).sublist ((hsub i).map key)

theorem erase_sublist (k : κ) (i : ι) : (erase slot key b k i).Sublist (b i) := by
  rw [erase]
  rcases eq_or_ne i (slot k) with rfl | hi
  · rw [Function.update_self]
    exact List.eraseP_sublist
  · rw [Function.update_of_ne hi]

theorem WF.erase (h : WF slot key b) (k : κ) : WF slot key (erase slot key b k) :=
  h.sublist (erase_sublist k)

theorem eraseP_key_ne {l : List α} (hl : (l.map key).Nodup) (k : κ) :
    ∀ a ∈ l.eraseP (fun a => key a = k), key a ≠ k := by
  induction l with
  | nil => simp
  | cons c l ih =>
    rw [List.map_cons, List.nodup_cons] at hl
    intro a ha
    by_cases hc : key c = k
    · rw [List.eraseP_cons_of_pos (by simpa using hc)] at ha
      intro hak
      exact hl.1 (by rw [hc, ← hak]; exact List.mem_map_of_mem ha)
    · rw [List.eraseP_cons_of_neg (by simpa using hc), List.mem_cons] at ha
      rcases ha with rfl | ha
      · exact hc
      · exact ih hl.2 a ha

omit [DecidableEq ι] in
/-- Erasing an entry with another key does not disturb a search. -/
theorem find?_eraseP_ne {k k' : κ} (hk : k' ≠ k) (l : List α) :
    (l.eraseP fun a => key a = k).find? (fun a => key a = k')
      = l.find? fun a => key a = k' := by
  induction l with
  | nil => rfl
  | cons c l ih =>
    by_cases hc : key c = k
    · rw [List.eraseP_cons_of_pos (by simpa using hc), List.find?_cons_of_neg]
      simpa [hc] using fun h => hk h.symm
    · rw [List.eraseP_cons_of_neg (by simpa using hc), List.find?_cons, List.find?_cons, ih]

theorem WF.find_erase (h : WF slot key b) (k k' : κ) :
    find slot key (Buckets.erase slot key b k) k'
      = if k' = k then none else find slot key b k' := by
  split_ifs with hk
  · rw [hk, find_eq_none_iff, Buckets.erase, Function.update_self]
    exact eraseP_key_ne (h.nodup _) k
  · rw [find, Buckets.erase]
    by_cases hslot : slot k' = slot k
    · rw [hslot, Function.update_self, find?_eraseP_ne hk, find, hslot]
    · rw [Function.update_of_ne hslot, find]

/-! ### Altering an entry -/

variable (key) in
theorem map_key_alter (k : κ) {f : α → α} (hf : ∀ a, key (f a) = key a) (l : List α) :
    (l.map fun a => if key a = k then f a else a).map key = l.map key := by
  rw [List.map_map]
  refine List.map_congr_left fun a _ => ?_
  rw [Function.comp_apply]
  split_ifs
  · exact hf a
  · rfl

theorem WF.alter (h : WF slot key b) (k : κ) {f : α → α} (hf : ∀ a, key (f a) = key a) :
    WF slot key (alter slot key b k f) := by
  constructor
  · intro i a ha
    rw [Buckets.alter] at ha
    rcases eq_or_ne i (slot k) with rfl | hi
    · rw [Function.update_self] at ha
      have hkey : key a ∈ (b (slot k)).map key := by
        rw [← map_key_alter key k hf]
        exact List.mem_map_of_mem ha
      obtain ⟨c, hc, hck⟩ := List.mem_map.mp hkey
      rw [← hck]
      exact h.placed _ c hc
    · rw [Function.update_of_ne hi] at ha
      exact h.placed i a ha
  · intro i
    rw [Buckets.alter]
    rcases eq_or_ne i (slot k) with rfl | hi
    · rw [Function.update_self, map_key_alter key k hf]
      exact h.nodup _
    · rw [Function.update_of_ne hi]
      exact h.nodup i

variable (key) in
omit [DecidableEq ι] in
/-- Searching an altered list. -/
theorem find?_map_alter (k : κ) {f : α → α} (hf : ∀ a, key (f a) = key a) (k' : κ) (l : List α) :
    (l.map fun a => if key a = k then f a else a).find? (fun a => key a = k')
      = if k' = k then (l.find? fun a => key a = k').map f else l.find? fun a => key a = k' := by
  induction l with
  | nil => simp
  | cons c l ih =>
    have hkey : key (if key c = k then f c else c) = key c := by
      split_ifs
      · exact hf c
      · rfl
    rw [List.map_cons, List.find?_cons, List.find?_cons, hkey]
    by_cases hc : key c = k'
    · simp only [hc, decide_true]
      by_cases hk : k' = k
      · simp [hk]
      · simp [hk]
    · simp only [hc, decide_false]
      exact ih

variable (slot key b) in
theorem find_alter (k : κ) {f : α → α} (hf : ∀ a, key (f a) = key a) (k' : κ) :
    find slot key (alter slot key b k f) k'
      = if k' = k then (find slot key b k').map f else find slot key b k' := by
  rw [find, find, Buckets.alter]
  by_cases hslot : slot k' = slot k
  · rw [hslot, Function.update_self, find?_map_alter key k hf]
  · rw [Function.update_of_ne hslot, if_neg fun h => hslot (by rw [h])]

/-- A change that leaves the entry of a key alone leaves the table alone. -/
theorem WF.alter_of_find (h : WF slot key b) {k : κ} {a : α} (hf : find slot key b k = some a)
    {f : α → α} (hfa : f a = a) : Buckets.alter slot key b k f = b := by
  funext i
  rw [Buckets.alter]
  rcases eq_or_ne i (slot k) with rfl | hi
  · rw [Function.update_self]
    have hself : ∀ c ∈ b (slot k), (if key c = k then f c else c) = id c := by
      intro c hc
      split_ifs with hck
      · obtain rfl : c = a := by
          have hfc := h.find_of_mem hc
          rw [hck, hf] at hfc
          exact (Option.some.inj hfc).symm
        exact hfa
      · rfl
    rw [List.map_congr_left hself, List.map_id]
  · rw [Function.update_of_ne hi]

/-! ### Filtering the entries -/

/-- The entries that pass a test. -/
def filter (p : α → Bool) (b : ι → List α) : ι → List α := fun i => (b i).filter p

variable {p : α → Bool}

omit [DecidableEq ι] [DecidableEq κ] in
theorem WF.filter (h : WF slot key b) (p : α → Bool) : WF slot key (filter p b) :=
  h.sublist fun _ => List.filter_sublist

omit [DecidableEq ι] in
/-- A key is found among the entries that pass if its entry passes. -/
theorem WF.find_filter (h : WF slot key b) (p : α → Bool) (k : κ) :
    find slot key (Buckets.filter p b) k = (find slot key b k).filter p := by
  cases hf : find slot key b k with
  | none =>
    rw [Option.filter_none, find_eq_none_iff]
    exact fun a ha => find_eq_none_iff.mp hf a (List.mem_filter.mp ha).1
  | some a =>
    obtain ⟨rfl, i, hi⟩ := h.find_eq_some_iff.mp hf
    rw [Option.filter_some]
    split_ifs with hp
    · exact (h.filter p).find_of_mem (List.mem_filter.mpr ⟨hi, hp⟩)
    · rw [find_eq_none_iff]
      intro c hc hkey
      obtain ⟨hmem, hpc⟩ := List.mem_filter.mp hc
      have hfc := h.find_of_mem hmem
      rw [hkey, hf] at hfc
      exact hp (Option.some.inj hfc ▸ hpc)

omit [DecidableEq ι] [DecidableEq κ] in
theorem filter_filter_self (b : ι → List α) : filter p (filter p b) = filter p b := by
  funext i
  rw [filter, filter, List.filter_filter]
  simp only [Bool.and_self]

omit [DecidableEq κ] in
/-- Entries that do not pass do not show when an entry is added. -/
theorem filter_push (a : α) :
    filter p (push slot key b a) = filter p (push slot key (filter p b) a) := by
  funext i
  rw [filter, filter, push, push]
  rcases eq_or_ne i (slot (key a)) with rfl | hi
  · rw [Function.update_self, Function.update_self, List.filter_cons, List.filter_cons]
    simp only [filter, List.filter_filter, Bool.and_self]
  · rw [Function.update_of_ne hi, Function.update_of_ne hi]
    simp only [filter, List.filter_filter, Bool.and_self]

/-- Entries that do not pass do not show when an entry that passes is altered. -/
theorem filter_alter {k : κ} (hk : ∀ i, ∀ a ∈ b i, key a = k → p a = true) (f : α → α) :
    filter p (alter slot key b k f) = filter p (alter slot key (filter p b) k f) := by
  funext i
  rw [filter, filter, alter, alter]
  rcases eq_or_ne i (slot k) with rfl | hi
  · rw [Function.update_self, Function.update_self]
    have hlist : ∀ l : List α, (∀ a ∈ l, key a = k → p a = true) →
        (l.map fun a => if key a = k then f a else a).filter p
          = ((l.filter p).map fun a => if key a = k then f a else a).filter p := by
      intro l hl
      induction l with
      | nil => rfl
      | cons a l ih =>
        obtain ⟨ha, hl⟩ := List.forall_mem_cons.mp hl
        by_cases hpa : p a = true
        · rw [List.filter_cons_of_pos hpa, List.map_cons, List.map_cons, List.filter_cons,
            List.filter_cons, ih hl]
        · have hka : key a ≠ k := fun h => hpa (ha h)
          rw [List.filter_cons_of_neg hpa, List.map_cons, if_neg hka, List.filter_cons_of_neg hpa,
            ih hl]
    exact hlist _ (hk _)
  · rw [Function.update_of_ne hi, Function.update_of_ne hi]
    simp only [filter, List.filter_filter, Bool.and_self]

theorem eraseP_key_eq_filter {l : List α} (hl : (l.map key).Nodup) (k : κ) :
    (l.eraseP fun a => key a = k) = l.filter fun a => key a ≠ k := by
  induction l with
  | nil => rfl
  | cons c l ih =>
    rw [List.map_cons, List.nodup_cons] at hl
    by_cases hc : key c = k
    · have hrest : ∀ a ∈ l, (decide (key a ≠ k)) = true := by
        intro a ha
        rw [decide_eq_true_eq]
        intro hak
        exact hl.1 (by rw [hc, ← hak]; exact List.mem_map_of_mem ha)
      rw [List.eraseP_cons_of_pos (by simpa using hc), List.filter_cons_of_neg (by simpa using hc),
        List.filter_eq_self.mpr hrest]
    · rw [List.eraseP_cons_of_neg (by simpa using hc), List.filter_cons_of_pos (by simpa using hc),
        ih hl.2]

/-- Removing the entry of a key keeps those of the other keys. -/
theorem WF.erase_eq_filter (h : WF slot key b) (k : κ) :
    Buckets.erase slot key b k = Buckets.filter (fun a => key a ≠ k) b := by
  funext i
  rw [Buckets.erase, Buckets.filter]
  rcases eq_or_ne i (slot k) with rfl | hi
  · rw [Function.update_self]
    exact eraseP_key_eq_filter (h.nodup _) k
  · rw [Function.update_of_ne hi]
    refine (List.filter_eq_self.mpr fun a ha => ?_).symm
    rw [decide_eq_true_eq]
    rintro rfl
    exact hi (h.placed i a ha).symm

/-- Entries that do not pass do not show when an entry is removed. -/
theorem WF.filter_erase (h : WF slot key b) (p : α → Bool) (k : κ) :
    Buckets.filter p (Buckets.erase slot key b k)
      = Buckets.filter p (Buckets.erase slot key (Buckets.filter p b) k) := by
  rw [h.erase_eq_filter, (h.filter p).erase_eq_filter]
  funext i
  simp only [Buckets.filter, List.filter_filter]
  refine List.filter_congr fun a _ => ?_
  cases p a with
  | true => simp
  | false => simp

/-- Removing an entry that does not pass does not show. -/
theorem WF.filter_erase_of_not (h : WF slot key b) {k : κ}
    (hk : ∀ i, ∀ a ∈ b i, key a = k → p a = false) :
    Buckets.filter p (Buckets.erase slot key b k) = Buckets.filter p b := by
  rw [h.erase_eq_filter]
  funext i
  simp only [Buckets.filter, List.filter_filter]
  refine List.filter_congr fun a ha => ?_
  by_cases hak : key a = k
  · simp [hak, hk i a ha hak]
  · simp [hak]

end MuseKv.General.Buckets
