import Mathlib.Data.List.Nodup
import Mathlib.Logic.Function.Basic

/-!
# Doubly linked chains on a heap

A heap maps addresses to cells, and a cell holds a value and the links to the next and the previous
cell.  `Seg m prev head l last next` says that from `head` on the heap holds the cells of `l` (with
their addresses) linked in both directions, that the link back from the first of them is `prev` and
that the link on from the last of them, which is `last`, is `next`.  A chain is a segment that starts
and ends with `none`.

The operations on a chain (`pushFront`, `unlink`, `setVal`) are partial: following a dangling link
gives `none`.  On a chain of distinct addresses they succeed, do to the list what their names say, and
leave every other address alone (`Seg.pushFront`, `Seg.unlink`, `Seg.setVal`); walking and searching
with enough fuel see exactly the list (`Seg.walk`, `Seg.search`), and so does counting links (`Seg.nth`).
-/

namespace MuseKv.General

/-- A cell of a doubly linked chain. -/
structure Cell (π α : Type*) where
  val : α
  next : Option π
  prev : Option π

/-- A heap of cells. -/
abbrev Heap (π α : Type*) := π → Option (Cell π α)

namespace Heap

variable {π α : Type*}

/-- The loop `while(node != NULL)` that collects the values, for at most `fuel` rounds. -/
def walk (m : Heap π α) : ℕ → Option π → Option (List (π × α))
  | _, none => some []
  | 0, some _ => none
  | fuel + 1, some p => (m p).bind fun c => (walk m fuel c.next).map fun l => (p, c.val) :: l

/-- The loop `while(node != NULL)` that returns the first cell passing a test. -/
def search (m : Heap π α) (test : α → Bool) : ℕ → Option π → Option (Option π)
  | _, none => some none
  | 0, some _ => none
  | fuel + 1, some p =>
    (m p).bind fun c => if test c.val then some (some p) else search m test fuel c.next

/-- The cell after `n` links.  Following a missing or a dangling link is a fault. -/
def nth (m : Heap π α) : ℕ → Option π → Option (Cell π α)
  | _, none => none
  | 0, some p => m p
  | n + 1, some p => (m p).bind fun c => nth m n c.next

/-- A segment of doubly linked cells. -/
def Seg (m : Heap π α) : Option π → Option π → List (π × α) → Option π → Option π → Prop
  | prev, head, [], last, next => head = next ∧ last = prev
  | prev, head, (p, a) :: l, last, next =>
    head = some p ∧ ∃ n, m p = some ⟨a, n, prev⟩ ∧ Seg m (some p) n l last next

/-- The addresses of a list of cells. -/
abbrev addrs (l : List (π × α)) : List π := l.map Prod.fst

variable {m m' : Heap π α} {prev head last next : Option π} {l l' : List (π × α)}

/-! ### Segments -/

/-- Two segments that meet are one segment. -/
theorem seg_append : m.Seg prev head (l ++ l') last next ↔
    ∃ mid midLast, m.Seg prev head l midLast mid ∧ m.Seg midLast mid l' last next := by
  induction l generalizing prev head with
  | nil =>
    constructor
    · exact fun h => ⟨head, prev, ⟨rfl, rfl⟩, h⟩
    · rintro ⟨mid, midLast, ⟨rfl, rfl⟩, h⟩
      exact h
  | cons x l ih =>
    constructor
    · rintro ⟨hhead, n, hp, h⟩
      obtain ⟨mid, midLast, h₁, h₂⟩ := ih.mp h
      exact ⟨mid, midLast, ⟨hhead, n, hp, h₁⟩, h₂⟩
    · rintro ⟨mid, midLast, ⟨hhead, n, hp, h₁⟩, h₂⟩
      exact ⟨hhead, n, hp, ih.mpr ⟨mid, midLast, h₁, h₂⟩⟩

/-- **Frame rule**: a segment depends on the cells at its addresses only. -/
theorem Seg.congr (h : m.Seg prev head l last next) (hm : ∀ p ∈ addrs l, m' p = m p) :
    m'.Seg prev head l last next := by
  induction l generalizing prev head with
  | nil => exact h
  | cons x l ih =>
    obtain ⟨hhead, n, hp, h⟩ := h
    refine ⟨hhead, n, ?_, ih h fun p hp => hm p (List.mem_cons_of_mem _ hp)⟩
    rw [hm x.1 (List.mem_cons_self ..), hp]

/-- The cell at an address of a segment. -/
theorem Seg.cell (h : m.Seg prev head l last next) {x : π × α} (hx : x ∈ l) :
    ∃ c, m x.1 = some c ∧ c.val = x.2 := by
  induction l generalizing prev head with
  | nil => simp at hx
  | cons y l ih =>
    obtain ⟨-, n, hp, h⟩ := h
    rcases List.mem_cons.mp hx with rfl | hx
    · exact ⟨_, hp, rfl⟩
    · exact ih h hx

/-- The first cell links back to `prev`. -/
theorem Seg.head_prev (h : m.Seg prev head l last none) {p : π} (hp : head = some p) :
    ∃ c, m p = some c ∧ c.prev = prev := by
  cases l with
  | nil => exact absurd (h.1.symm.trans hp) (by simp)
  | cons x l =>
    obtain ⟨hhead, n, hx, -⟩ := h
    obtain rfl := Option.some.inj (hhead.symm.trans hp)
    exact ⟨_, hx, rfl⟩

/-- The next cell links back. -/
theorem Seg.next_prev (h : m.Seg prev head l last none) {p q : π} (hp : p ∈ addrs l)
    {c : Cell π α} (hc : m p = some c) (hq : c.next = some q) :
    ∃ c', m q = some c' ∧ c'.prev = some p := by
  induction l generalizing prev head with
  | nil => simp at hp
  | cons x l ih =>
    obtain ⟨-, n, hx, h⟩ := h
    rcases List.mem_cons.mp hp with rfl | hp
    · obtain rfl := Option.some.inj (hc.symm.trans hx)
      exact h.head_prev hq
    · exact ih h hp

/-- The previous cell links on, unless there is none in the segment. -/
theorem Seg.prev_next (h : m.Seg prev head l last next) {p q : π} (hp : p ∈ addrs l)
    {c : Cell π α} (hc : m p = some c) (hq : c.prev = some q) :
    (prev = some q ∧ head = some p) ∨ ∃ c', m q = some c' ∧ c'.next = some p := by
  induction l generalizing prev head with
  | nil => simp at hp
  | cons x l ih =>
    obtain ⟨hhead, n, hx, h⟩ := h
    rcases List.mem_cons.mp hp with rfl | hp
    · obtain rfl := Option.some.inj (hc.symm.trans hx)
      exact Or.inl ⟨hq, hhead⟩
    · rcases ih h hp with ⟨hprev, hn⟩ | h
      · obtain rfl := Option.some.inj hprev
        exact Or.inr ⟨_, hx, hn⟩
      · exact Or.inr h

/-! ### Loops -/

/-- **Walking a chain** with enough fuel collects its list. -/
theorem Seg.walk (h : m.Seg prev head l last none) {fuel : ℕ} (hf : l.length ≤ fuel) :
    m.walk fuel head = some l := by
  induction l generalizing prev head fuel with
  | nil =>
    obtain ⟨rfl, -⟩ := h
    cases fuel <;> rfl
  | cons x l ih =>
    obtain ⟨rfl, n, hx, h⟩ := h
    obtain ⟨fuel, rfl⟩ : ∃ k, fuel = k + 1 := ⟨fuel - 1, by simp at hf; omega⟩
    rw [Heap.walk, hx, Option.bind_some, ih h (by simpa using hf), Option.map_some]

/-- A list that a walk collects is a chain, if the cells link back as they link on. -/
theorem seg_of_walk {fuel : ℕ} (hwalk : m.walk fuel head = some l)
    (hnext : ∀ p q c, m p = some c → c.next = some q → ∃ c', m q = some c' ∧ c'.prev = some p)
    (hprev : ∀ p, head = some p → ∃ c, m p = some c ∧ c.prev = prev) :
    ∃ last, m.Seg prev head l last none := by
  induction fuel generalizing prev head l with
  | zero =>
    cases head with
    | none =>
      obtain rfl := Option.some.inj hwalk
      exact ⟨prev, rfl, rfl⟩
    | some p => simp [Heap.walk] at hwalk
  | succ fuel ih =>
    cases head with
    | none =>
      obtain rfl := Option.some.inj hwalk
      exact ⟨prev, rfl, rfl⟩
    | some p =>
      obtain ⟨c, hc, rfl⟩ := hprev p rfl
      rw [Heap.walk, hc, Option.bind_some, Option.map_eq_some_iff] at hwalk
      obtain ⟨rest, hrest, rfl⟩ := hwalk
      obtain ⟨last, hseg⟩ := ih hrest fun q hq => hnext p q c hc hq
      exact ⟨last, rfl, c.next, hc, hseg⟩

/-- **A position of a chain** is reached without a fault. -/
theorem Seg.nth (h : m.Seg prev head l last next) {n : ℕ} (hn : n < l.length) :
    ∃ c, m.nth n head = some c ∧ c.val = l[n].2 := by
  induction l generalizing prev head n with
  | nil => exact absurd hn (by simp)
  | cons x l ih =>
    obtain ⟨rfl, q, hx, h⟩ := h
    cases n with
    | zero => exact ⟨_, hx, rfl⟩
    | succ n =>
      obtain ⟨c, hc, hval⟩ := ih h (by simpa using hn)
      refine ⟨c, ?_, by simpa using hval⟩
      rw [Heap.nth, hx, Option.bind_some]
      exact hc

/-- **Searching a chain** with enough fuel finds its first cell that passes the test. -/
theorem Seg.search (h : m.Seg prev head l last none) (test : α → Bool) {fuel : ℕ}
    (hf : l.length ≤ fuel) :
    m.search test fuel head = some ((l.find? fun x => test x.2).map Prod.fst) := by
  induction l generalizing prev head fuel with
  | nil =>
    obtain ⟨rfl, -⟩ := h
    cases fuel <;> rfl
  | cons x l ih =>
    obtain ⟨rfl, n, hx, h⟩ := h
    obtain ⟨fuel, rfl⟩ : ∃ k, fuel = k + 1 := ⟨fuel - 1, by simp at hf; omega⟩
    rw [Heap.search, hx, Option.bind_some, List.find?_cons]
    cases htest : test x.2 with
    | true => rfl
    | false =>
      simp only [Bool.false_eq_true, ↓reduceIte]
      exact ih h (by simpa using hf)

/-! ### Writing cells -/

variable [DecidableEq π]

/-- Change the cell at an address; a dangling address is a fault. -/
def modify (m : Heap π α) (p : π) (f : Cell π α → Cell π α) : Option (Heap π α) :=
  (m p).map fun c => Function.update m p (some (f c))

def setNext (m : Heap π α) (p : π) (next : Option π) : Option (Heap π α) :=
  m.modify p fun c => { c with next := next }

def setPrev (m : Heap π α) (p : π) (prev : Option π) : Option (Heap π α) :=
  m.modify p fun c => { c with prev := prev }

def setVal (m : Heap π α) (p : π) (f : α → α) : Option (Heap π α) :=
  m.modify p fun c => { c with val := f c.val }

def free (m : Heap π α) (p : π) : Heap π α := Function.update m p none

/-- `if(next != NULL) next->prev_ptr = prev`. -/
def relinkPrev (m : Heap π α) (next prev : Option π) : Option (Heap π α) :=
  match next with
  | none => some m
  | some q => m.setPrev q prev

/-- `if(prev == NULL) head = next; else prev->next_ptr = next`. -/
def relinkNext (m : Heap π α) (head prev next : Option π) : Option (Heap π α × Option π) :=
  match prev with
  | none => some (m, next)
  | some q => (m.setNext q next).map fun m => (m, head)

/-- Take the cell at `p` out of the chain that starts at `head`, and free it. -/
def unlink (m : Heap π α) (head : Option π) (p : π) : Option (Heap π α × Option π) :=
  (m p).bind fun c => (m.relinkPrev c.next c.prev).bind fun m =>
    (m.relinkNext head c.prev c.next).map fun r => (r.1.free p, r.2)

/-- Allocate a cell at `p` and put it in front of the chain that starts at `head`. -/
def pushFront (m : Heap π α) (head : Option π) (p : π) (a : α) :
    Option (Heap π α × Option π) :=
  let m : Heap π α := Function.update m p (some ⟨a, none, none⟩)
  match head with
  | none => some (m, some p)
  | some q => (m.setNext p (some q)).bind fun m => (m.setPrev q (some p)).map fun m => (m, some p)

theorem modify_eq_some {p : π} {c : Cell π α} (hc : m p = some c) (f : Cell π α → Cell π α) :
    m.modify p f = some (Function.update m p (some (f c))) := by
  rw [modify, hc, Option.map_some]

/-- A new link back from the first cell. -/
theorem Seg.relinkPrev (h : m.Seg prev head l last none) (hl : (addrs l).Nodup)
    (prev' : Option π) : ∃ m' last', m.relinkPrev head prev' = some m' ∧
      m'.Seg prev' head l last' none ∧ ∀ q, q ∉ addrs l → m' q = m q := by
  cases l with
  | nil =>
    obtain ⟨rfl, -⟩ := h
    exact ⟨m, prev', rfl, ⟨rfl, rfl⟩, fun _ _ => rfl⟩
  | cons x l =>
    obtain ⟨rfl, n, hx, h⟩ := h
    rw [addrs, List.map_cons, List.nodup_cons] at hl
    refine ⟨_, last, modify_eq_some hx _, ⟨rfl, n, by rw [Function.update_self], ?_⟩, ?_⟩
    · refine h.congr fun p hp => Function.update_of_ne ?_ _ _
      rintro rfl
      exact hl.1 hp
    · intro q hq
      refine Function.update_of_ne (fun h => hq ?_) _ _
      simp [h]

/-- A new link on from the last cell, or a new start. -/
theorem Seg.relinkNext (h : m.Seg none head l last next) (hl : (addrs l).Nodup)
    (next' : Option π) : ∃ m' head', m.relinkNext head last next' = some (m', head') ∧
      m'.Seg none head' l last next' ∧ ∀ q, q ∉ addrs l → m' q = m q := by
  rcases List.eq_nil_or_concat l with rfl | ⟨l, x, rfl⟩
  · obtain ⟨-, rfl⟩ := h
    exact ⟨m, next', rfl, ⟨rfl, rfl⟩, fun _ _ => rfl⟩
  · rw [List.concat_eq_append] at h hl ⊢
    obtain ⟨mid, midLast, h₁, rfl, n, hx, rfl, rfl⟩ := seg_append.mp h
    rw [addrs, List.map_append, List.nodup_append] at hl
    have hne : ∀ q ∈ addrs l, q ≠ x.1 := fun q hq => hl.2.2 q hq x.1 (by simp)
    refine ⟨Function.update m x.1 (some ⟨x.2, next', midLast⟩), head, ?_,
      seg_append.mpr ⟨some x.1, midLast, ?_, rfl, next', ?_, rfl, rfl⟩, ?_⟩
    · rw [Heap.relinkNext, setNext, modify_eq_some hx]
      rfl
    · exact h₁.congr fun p hp => Function.update_of_ne (hne p hp) _ _
    · rw [Function.update_self]
    · intro q hq
      refine Function.update_of_ne (fun h => hq ?_) _ _
      simp [h]

/-- **Unlinking** takes one cell out of the list. -/
theorem Seg.unlink {p : π} {a : α} (h : m.Seg none head (l ++ (p, a) :: l') last none)
    (hl : (addrs (l ++ (p, a) :: l')).Nodup) :
    ∃ m' head' last', m.unlink head p = some (m', head') ∧
      m'.Seg none head' (l ++ l') last' none ∧ m' p = none ∧
      ∀ q, q ∉ addrs (l ++ (p, a) :: l') → m' q = m q := by
  obtain ⟨mid, midLast, h₁, rfl, n, hp, h₂⟩ := seg_append.mp h
  rw [addrs, List.map_append, List.map_cons, List.nodup_append, List.nodup_cons] at hl
  obtain ⟨hl₁, ⟨hp₂, hl₂⟩, hdisj⟩ := hl
  have hp₁ : p ∉ addrs l := fun hmem => hdisj p hmem p (List.mem_cons_self ..) rfl
  have hll : ∀ q ∈ addrs l, q ∉ addrs l' := fun q hq hq' =>
    hdisj q hq q (List.mem_cons_of_mem _ hq') rfl
  -- the cells behind `p` link back to the cells in front of it, and then these link on
  obtain ⟨m₁, last', hm₁, h₂, hframe₁⟩ := h₂.relinkPrev hl₂ midLast
  have h₁ := h₁.congr fun q hq => hframe₁ q (hll q hq)
  obtain ⟨m₂, head', hm₂, h₁, hframe₂⟩ := h₁.relinkNext hl₁ n
  have h₂ := h₂.congr fun q hq => hframe₂ q fun hq' => hll q hq' hq
  refine ⟨m₂.free p, head', last', ?_, ?_, Function.update_self .., ?_⟩
  · rw [Heap.unlink, hp, Option.bind_some, hm₁, Option.bind_some, hm₂, Option.map_some]
  · refine (seg_append.mpr ⟨n, midLast, h₁, h₂⟩).congr fun q hq => Function.update_of_ne ?_ _ _
    rintro rfl
    rw [addrs, List.map_append, List.mem_append] at hq
    exact hq.elim hp₁ hp₂
  · intro q hq
    rw [addrs, List.map_append, List.map_cons, List.mem_append, List.mem_cons, not_or, not_or] at hq
    rw [free, Function.update_of_ne hq.2.1, hframe₂ q hq.1, hframe₁ q hq.2.2]

/-- **Pushing** puts a new cell in front of the list. -/
theorem Seg.pushFront (h : m.Seg none head l last none) (hl : (addrs l).Nodup) {p : π}
    (hp : p ∉ addrs l) (a : α) :
    ∃ m' last', m.pushFront head p a = some (m', some p) ∧
      m'.Seg none (some p) ((p, a) :: l) last' none ∧
      ∀ q, q ∉ addrs ((p, a) :: l) → m' q = m q := by
  have hne : ∀ q ∈ addrs l, q ≠ p := fun q hq heq => hp (heq ▸ hq)
  cases l with
  | nil =>
    obtain ⟨rfl, rfl⟩ := h
    refine ⟨_, some p, rfl, ⟨rfl, none, Function.update_self .., rfl, rfl⟩, fun q hq => ?_⟩
    exact Function.update_of_ne (by simpa using hq) _ _
  | cons x l =>
    obtain ⟨rfl, n, hx, h⟩ := h
    have hxp : x.1 ≠ p := hne x.1 (List.mem_cons_self ..)
    rw [addrs, List.map_cons, List.nodup_cons] at hl
    refine ⟨Function.update (Function.update m p (some ⟨a, some x.1, none⟩)) x.1
      (some ⟨x.2, n, some p⟩), last, ?_, ⟨rfl, some x.1, ?_, rfl, n, ?_, ?_⟩, ?_⟩
    · -- the old head is given a link back to the new cell
      have hm₁ : setNext (Function.update m p (some ⟨a, none, none⟩)) p (some x.1)
          = some (Function.update m p (some ⟨a, some x.1, none⟩)) := by
        rw [setNext, modify_eq_some (c := ⟨a, none, none⟩) (Function.update_self ..),
          Function.update_idem]
      have hx' : Function.update m p (some ⟨a, some x.1, none⟩) x.1 = some ⟨x.2, n, none⟩ := by
        rw [Function.update_of_ne hxp, hx]
      rw [Heap.pushFront]
      simp only [hm₁, Option.bind_some, setPrev, modify_eq_some hx', Option.map_some]
    · rw [Function.update_of_ne hxp.symm, Function.update_self]
    · rw [Function.update_self]
    · refine h.congr fun q hq => ?_
      have hqx : q ≠ x.1 := fun heq => hl.1 (heq ▸ hq)
      rw [Function.update_of_ne hqx, Function.update_of_ne (hne q (List.mem_cons_of_mem _ hq))]
    · intro q hq
      rw [addrs, List.map_cons, List.map_cons, List.mem_cons, List.mem_cons, not_or, not_or] at hq
      rw [Function.update_of_ne hq.2.1, Function.update_of_ne hq.1]

/-- **Writing a value** changes the list at its address. -/
theorem Seg.setVal (h : m.Seg prev head l last next) (hl : (addrs l).Nodup) {p : π}
    (hp : p ∈ addrs l) (f : α → α) :
    ∃ m', m.setVal p f = some m' ∧
      m'.Seg prev head (l.map fun x => if x.1 = p then (x.1, f x.2) else x) last next ∧
      ∀ q, q ≠ p → m' q = m q := by
  obtain ⟨x, hx, rfl⟩ := List.mem_map.mp hp
  obtain ⟨c, hc, hval⟩ := h.cell hx
  refine ⟨_, modify_eq_some hc _, ?_, fun q hq => Function.update_of_ne hq _ _⟩
  clear hp hx hval
  induction l generalizing prev head with
  | nil => exact h
  | cons y l ih =>
    obtain ⟨rfl, n, hy, h⟩ := h
    rw [addrs, List.map_cons, List.nodup_cons] at hl
    rw [List.map_cons]
    by_cases hyx : y.1 = x.1
    · -- the address does not occur again, so the rest of the list stays
      have hrest : (l.map fun z => if z.1 = x.1 then (z.1, f z.2) else z) = l := by
        refine (List.map_congr_left fun z hz => ?_).trans (List.map_id l)
        exact if_neg fun hzx => hl.1 (by rw [hyx, ← hzx]; exact List.mem_map_of_mem hz)
      rw [hyx] at hy hl h
      obtain rfl := Option.some.inj (hc.symm.trans hy)
      rw [if_pos hyx, hrest, hyx]
      refine ⟨rfl, n, Function.update_self .., h.congr fun q hq => ?_⟩
      have hqx : q ≠ x.1 := fun heq => hl.1 (heq ▸ hq)
      exact Function.update_of_ne hqx _ _
    · rw [if_neg hyx]
      exact ⟨rfl, n, by rw [Function.update_of_ne hyx, hy], ih h hl.2⟩

end Heap

end MuseKv.General
