import MuseKv.General.Chain
import Mathlib.Data.List.GetD
import Mathlib.Tactic.Ring

/-!
# Rings on a heap

A ring is a chain whose last cell links on to the first, and whose first cell links back to the last:
a segment that closes on itself.  A ring can be cut open anywhere (`Ring.rotate`), so its operations
are proved once, at the head, and moved to the cell they work on.

`insertBefore` and `bypass` are the two pieces of pointer surgery (`Ring.insertBefore`, `Ring.bypass`);
`Ring.follow_next` and `Ring.follow_prev` say where a walk of any number of steps ends.
-/

namespace MuseKv.General.Heap

variable {π α : Type*}

/-- A ring with the cells `l` (with their addresses), the first of them at `head`. -/
structure Ring (m : Heap π α) (head : Option π) (l : List (π × α)) : Prop where
  nodup : (addrs l).Nodup
  head_eq : head = (addrs l).head?
  seg : ∃ last, m.Seg last head l last head

/-- `n` steps along a link; following a link out of a dangling address is a fault. -/
def follow (m : Heap π α) (link : Cell π α → Option π) : ℕ → Option π → Option (Option π)
  | 0, p => some p
  | n + 1, p => p.bind fun p => (m p).bind fun c => follow m link n (link c)

variable {m m' : Heap π α} {prev head last next : Option π} {l l' : List (π × α)}

/-! ### Segments by position -/

theorem addrs_cons (x : π × α) (l : List (π × α)) : addrs (x :: l) = x.1 :: addrs l := rfl

/-- Writing a value moves no cell. -/
theorem addrs_set {i : ℕ} {x : π × α} (hx : l[i]? = some x) (a : α) :
    addrs (l.set i (x.1, a)) = addrs l := by
  obtain ⟨hi, rfl⟩ := List.getElem?_eq_some_iff.mp hx
  rw [addrs, List.map_set, ← List.getElem_map Prod.fst (h := by simpa using hi),
    List.set_getElem_self]

/-- The last address of a segment. -/
theorem Seg.last_eq (h : m.Seg prev head l last next) : last = ((addrs l).getLast?).or prev := by
  induction l generalizing prev head with
  | nil => exact h.2
  | cons x l ih =>
    obtain ⟨-, n, -, h⟩ := h
    rw [ih h, addrs_cons, List.getLast?_cons]
    cases (addrs l).getLast? <;> rfl

/-- The first address of a segment. -/
theorem Seg.head_eq (h : m.Seg prev head l last next) : head = ((addrs l).head?).or next := by
  cases l with
  | nil => exact h.1
  | cons x l => exact h.1

/-- The cell at a position of a segment, and its links. -/
theorem Seg.getElem (h : m.Seg prev head l last next) {i : ℕ} {x : π × α} (hx : l[i]? = some x) :
    m x.1 = some ⟨x.2, ((addrs l)[i + 1]?).or next,
      if i = 0 then prev else (addrs l)[i - 1]?⟩ := by
  induction l generalizing prev head i with
  | nil => simp at hx
  | cons y l ih =>
    obtain ⟨rfl, n, hy, h⟩ := h
    cases i with
    | zero =>
      obtain rfl := Option.some.inj hx
      rw [hy, h.head_eq, addrs_cons, List.getElem?_cons_succ, List.head?_eq_getElem?]
      rfl
    | succ i =>
      rw [List.getElem?_cons_succ] at hx
      rw [ih h hx, addrs_cons, List.getElem?_cons_succ]
      cases i with
      | zero => rfl
      | succ i => rfl

/-! ### Cutting a ring open -/

/-- **A ring has no beginning.** -/
theorem Ring.rotate (h : m.Ring head (l ++ l')) : m.Ring (addrs (l' ++ l)).head? (l' ++ l) := by
  obtain ⟨hnodup, hhead, last, hseg⟩ := h
  have hperm : (addrs (l' ++ l)).Perm (addrs (l ++ l')) := List.perm_append_comm.map Prod.fst
  refine ⟨hperm.nodup_iff.mpr hnodup, rfl, ?_⟩
  obtain ⟨mid, midLast, h₁, h₂⟩ := seg_append.mp hseg
  have hrot : m.Seg midLast mid (l' ++ l) midLast mid := seg_append.mpr ⟨head, last, h₂, h₁⟩
  refine ⟨midLast, ?_⟩
  cases hl : l' ++ l with
  | nil => exact ⟨rfl, rfl⟩
  | cons x r =>
    rw [hl] at hrot
    have hmid : mid = some x.1 := hrot.1
    rw [hmid] at hrot
    exact hrot

/-- **Frame rule** for rings. -/
theorem Ring.congr (h : m.Ring head l) (hm : ∀ p ∈ addrs l, m' p = m p) : m'.Ring head l := by
  obtain ⟨hnodup, hhead, last, hseg⟩ := h
  exact ⟨hnodup, hhead, last, hseg.congr hm⟩

/-- The cell at a position of a ring, and its links. -/
theorem Ring.getElem (h : m.Ring head l) {i : ℕ} {x : π × α} (hx : l[i]? = some x) :
    m x.1 = some ⟨x.2, (addrs l)[(i + 1) % l.length]?, (addrs l)[(i + l.length - 1) % l.length]?⟩ := by
  obtain ⟨-, hhead, last, hseg⟩ := h
  obtain ⟨hi, -⟩ := List.getElem?_eq_some_iff.mp hx
  have hlen : (addrs l).length = l.length := List.length_map ..
  have hlast : last = (addrs l)[l.length - 1]? := by
    have hne : addrs l ≠ [] := by
      rw [← List.length_pos_iff, hlen]
      omega
    rw [hseg.last_eq, List.getLast?_eq_getElem?, hlen, List.getElem?_eq_getElem (by omega)]
    rfl
  rw [hseg.getElem hx]
  congr 2
  · rcases Nat.lt_or_ge (i + 1) l.length with hlt | hge
    · rw [Nat.mod_eq_of_lt hlt, List.getElem?_eq_getElem (by omega)]
      rfl
    · -- behind the last cell comes the head
      have hwrap : (i + 1) % l.length = 0 := by
        rw [show i + 1 = l.length by omega, Nat.mod_self]
      rw [hwrap, List.getElem?_eq_none (by omega), hhead, List.head?_eq_getElem?]
      rfl
  · cases i with
    | zero => rw [if_pos rfl, hlast, Nat.zero_add, Nat.mod_eq_of_lt (by omega)]
    | succ i =>
      have hwrap : (i + 1 + l.length - 1) % l.length = i := by
        rw [show i + 1 + l.length - 1 = i + l.length by omega, Nat.add_mod_right,
          Nat.mod_eq_of_lt (by omega)]
      rw [if_neg (by omega), hwrap, Nat.add_sub_cancel]

/-- One position on and one back. -/
theorem pred_succ_mod {i n : ℕ} (hi : i < n) : ((i + 1) % n + n - 1) % n = i := by
  rcases Nat.lt_or_ge (i + 1) n with hlt | hge
  · rw [Nat.mod_eq_of_lt hlt, show i + 1 + n - 1 = i + n by omega, Nat.add_mod_right,
      Nat.mod_eq_of_lt hi]
  · rw [show i + 1 = n by omega, Nat.mod_self, Nat.zero_add, Nat.mod_eq_of_lt (by omega)]
    omega

theorem succ_pred_mod {i n : ℕ} (hi : i < n) : ((i + n - 1) % n + 1) % n = i := by
  rw [Nat.mod_add_mod, show i + n - 1 + 1 = i + n by omega, Nat.add_mod_right, Nat.mod_eq_of_lt hi]

/-- **The links back are the inverse of the links on.** -/
theorem Ring.next_iff_prev (h : m.Ring head l) {p q : π} (hp : p ∈ addrs l) :
    (∃ c, m p = some c ∧ c.next = some q) ↔ q ∈ addrs l ∧ ∃ c, m q = some c ∧ c.prev = some p := by
  have hcell : ∀ {j : ℕ} {r : π}, (addrs l)[j]? = some r → ∃ x, l[j]? = some x ∧ x.1 = r := by
    intro j r hr
    rw [List.getElem?_map] at hr
    exact Option.map_eq_some_iff.mp hr
  obtain ⟨i, hi⟩ := List.mem_iff_getElem?.mp hp
  obtain ⟨x, hx, rfl⟩ := hcell hi
  obtain ⟨hlt, -⟩ := List.getElem?_eq_some_iff.mp hx
  rw [h.getElem hx]
  constructor
  · rintro ⟨c, hc, hq⟩
    obtain rfl := Option.some.inj hc
    obtain ⟨y, hy, rfl⟩ := hcell hq
    refine ⟨List.mem_of_getElem? hq, _, h.getElem hy, ?_⟩
    dsimp only
    rw [pred_succ_mod hlt, hi]
  · rintro ⟨hq, c, hc, hprev⟩
    obtain ⟨j, hj⟩ := List.mem_iff_getElem?.mp hq
    obtain ⟨y, hy, rfl⟩ := hcell hj
    obtain ⟨hjlt, -⟩ := List.getElem?_eq_some_iff.mp hy
    rw [h.getElem hy] at hc
    obtain rfl := Option.some.inj hc
    dsimp only at hprev
    -- both positions hold the address of `p`
    have hij : i = (j + l.length - 1) % l.length := by
      refine (List.getElem?_inj ?_ h.nodup).mp (hi.trans hprev.symm)
      rwa [List.length_map]
    refine ⟨_, rfl, ?_⟩
    dsimp only
    rw [hij, succ_pred_mod hjlt, hj]

/-! ### Walking -/

theorem Ring.follow_next_from (h : m.Ring head l) (hl : l ≠ []) (n i : ℕ) :
    m.follow Cell.next n (addrs l)[i % l.length]? = some (addrs l)[(i + n) % l.length]? := by
  induction n generalizing i with
  | zero => rfl
  | succ n ih =>
    have hi : i % l.length < l.length := Nat.mod_lt _ (List.length_pos_iff.mpr hl)
    have hx : l[i % l.length]? = some l[i % l.length] := List.getElem?_eq_getElem hi
    rw [follow, List.getElem?_map, hx, Option.map_some, Option.bind_some, h.getElem hx,
      Option.bind_some, Nat.mod_add_mod, ih (i + 1)]
    congr 3
    omega

/-- **Walking on** from the head, around the ring as often as it takes. -/
theorem Ring.follow_next (h : m.Ring head l) (hl : l ≠ []) (n : ℕ) :
    m.follow Cell.next n head = some (addrs l)[n % l.length]? := by
  have hwalk := h.follow_next_from hl n 0
  rwa [Nat.zero_mod, Nat.zero_add, ← List.head?_eq_getElem?, ← h.head_eq] at hwalk

theorem Ring.follow_prev_from (h : m.Ring head l) (n : ℕ) {i : ℕ} (hi : i < l.length) :
    m.follow Cell.prev n (addrs l)[i]? = some (addrs l)[(((i : Int) - n) % l.length).toNat]? := by
  induction n generalizing i with
  | zero =>
    have hstay : (((i : Int) - (0 : ℕ)) % l.length).toNat = i := by
      rw [Nat.cast_zero, sub_zero, Int.emod_eq_of_lt (by omega) (by omega), Int.toNat_natCast]
    rw [follow, hstay]
  | succ n ih =>
    have hx : l[i]? = some l[i] := List.getElem?_eq_getElem hi
    have hback : (i + l.length - 1) % l.length < l.length := Nat.mod_lt _ (by omega)
    -- one step back from position `i`, and `n` steps from there
    have hcast : (((i + l.length - 1) % l.length : ℕ) : Int) = ((i : Int) - 1) % l.length := by
      rw [Int.natCast_emod, Nat.cast_sub (by omega), ← Int.add_emod_right ((i : Int) - 1)]
      push_cast
      congr 1
      ring
    have hsteps : ((((i + l.length - 1) % l.length : ℕ) : Int) - n) % (l.length : Int)
        = ((i : Int) - (n + 1 : ℕ)) % (l.length : Int) := by
      rw [hcast, Int.emod_sub_emod]
      congr 1
      push_cast
      ring
    rw [follow, List.getElem?_map, hx, Option.map_some, Option.bind_some, h.getElem hx,
      Option.bind_some, ih hback, hsteps]

/-- **Walking back** from the head. -/
theorem Ring.follow_prev (h : m.Ring head l) (hl : l ≠ []) (n : ℕ) :
    m.follow Cell.prev n head = some (addrs l)[((-n : Int) % l.length).toNat]? := by
  have hwalk := h.follow_prev_from n (List.length_pos_iff.mpr hl)
  rwa [← List.head?_eq_getElem?, ← h.head_eq, Nat.cast_zero, zero_sub] at hwalk

/-! ### Pointer surgery -/

/-- A single cell linked to itself. -/
theorem ring_singleton {p : π} {a : α} (h : m p = some ⟨a, some p, some p⟩) :
    m.Ring (some p) [(p, a)] :=
  ⟨List.nodup_singleton _, rfl, some p, rfl, some p, h, rfl, rfl⟩

variable [DecidableEq π]

/-- Allocate a cell at `p` and link it in front of the cell at `h`. -/
def insertBefore (m : Heap π α) (h p : π) (a : α) : Option (Heap π α) :=
  (m h).bind fun c =>
    let m : Heap π α := Function.update m p (some ⟨a, some h, c.prev⟩)
    (m h).bind fun c => c.prev.bind fun q => (m.setNext q (some p)).bind fun m => m.setPrev h (some p)

/-- Let the neighbours of the cell at `p` link to each other. -/
def bypass (m : Heap π α) (p : π) : Option (Heap π α) :=
  (m p).bind fun c => c.next.bind fun n => (m.setPrev n c.prev).bind fun m =>
    (m p).bind fun c => c.prev.bind fun q => m.setNext q c.next

/-- A new link on from the last cell of a segment. -/
theorem Seg.setNext_last {x : π × α} (h : m.Seg prev head (l ++ [x]) last next)
    (hl : (addrs (l ++ [x])).Nodup) (next' : Option π) :
    ∃ m', m.setNext x.1 next' = some m' ∧ m'.Seg prev head (l ++ [x]) last next' ∧
      ∀ q, q ≠ x.1 → m' q = m q := by
  obtain ⟨mid, midLast, h₁, rfl, n, hx, rfl, rfl⟩ := seg_append.mp h
  rw [addrs, List.map_append, List.nodup_append] at hl
  have hne : ∀ q ∈ addrs l, q ≠ x.1 := fun q hq => hl.2.2 q hq x.1 (List.mem_singleton_self _)
  refine ⟨Function.update m x.1 (some ⟨x.2, next', midLast⟩), modify_eq_some hx _, ?_,
    fun q hq => Function.update_of_ne hq _ _⟩
  apply seg_append.mpr
  refine ⟨some x.1, midLast, ?_, rfl, next', Function.update_self .., rfl, rfl⟩
  exact h₁.congr fun q hq => Function.update_of_ne (hne q hq) _ _

/-- A new link back from the first cell of a segment. -/
theorem Seg.setPrev_head {x : π × α} (h : m.Seg prev head (x :: l) last next)
    (hl : (addrs (x :: l)).Nodup) (prev' : Option π) :
    ∃ m', m.setPrev x.1 prev' = some m' ∧ m'.Seg prev' head (x :: l) last next ∧
      ∀ q, q ≠ x.1 → m' q = m q := by
  obtain ⟨rfl, n, hx, h⟩ := h
  rw [addrs_cons, List.nodup_cons] at hl
  refine ⟨_, modify_eq_some hx _, ⟨rfl, n, Function.update_self .., ?_⟩,
    fun q hq => Function.update_of_ne hq _ _⟩
  apply h.congr
  rintro q hq
  apply Function.update_of_ne
  rintro rfl
  exact hl.1 hq

/-- **`insertBefore` the head** puts a new cell at the end. -/
theorem Ring.insertBefore {h : π} {b : α} (hr : m.Ring (some h) ((h, b) :: l)) {p : π}
    (hp : p ∉ addrs ((h, b) :: l)) (a : α) :
    ∃ m', m.insertBefore h p a = some m' ∧ m'.Ring (some h) ((h, b) :: l ++ [(p, a)]) ∧
      ∀ q, q ∉ addrs ((h, b) :: l ++ [(p, a)]) → m' q = m q := by
  obtain ⟨hnodup, -, last, hseg⟩ := hr
  have hne : ∀ q ∈ addrs ((h, b) :: l), q ≠ p := fun q hq heq => hp (heq ▸ hq)
  have hph : h ≠ p := hne h (List.mem_cons_self ..)
  obtain ⟨r, z, hz⟩ := List.eq_nil_or_concat ((h, b) :: l) |>.resolve_left (List.cons_ne_nil _ _)
  rw [List.concat_eq_append] at hz
  have hzp : z.1 ≠ p := hne z.1 (by rw [hz]; simp)
  have hlast : last = some z.1 := by
    rw [hseg.last_eq, hz, addrs, List.map_append, List.map_singleton, List.getLast?_concat]
    rfl
  obtain ⟨n, hh⟩ : ∃ n, m h = some ⟨b, n, last⟩ := ⟨_, hseg.2.choose_spec.1⟩
  -- the new cell, then the link on from the last cell, then the link back from the head
  set m₁ : Heap π α := Function.update m p (some ⟨a, some h, last⟩) with hm₁
  have hseg₁ : m₁.Seg last (some h) ((h, b) :: l) last (some h) :=
    hseg.congr fun q hq => Function.update_of_ne (hne q hq) _ _
  have hh₁ : m₁ h = some ⟨b, n, last⟩ := by rw [hm₁, Function.update_of_ne hph, hh]
  obtain ⟨m₂, hm₂, hseg₂, hframe₂⟩ :=
    (hz ▸ hseg₁ : m₁.Seg _ _ (r ++ [z]) _ _).setNext_last (hz ▸ hnodup) (some p)
  obtain ⟨m₃, hm₃, hseg₃, hframe₃⟩ :=
    (hz ▸ hseg₂ : m₂.Seg _ _ ((h, b) :: l) _ _).setPrev_head hnodup (some p)
  refine ⟨m₃, ?_, ⟨?_, rfl, some p, ?_⟩, ?_⟩
  · rw [Heap.insertBefore, hh, Option.bind_some]
    change (m₁ h).bind (fun c => c.prev.bind fun q =>
      (m₁.setNext q (some p)).bind fun m => m.setPrev h (some p)) = _
    rw [hh₁, Option.bind_some, hlast, Option.bind_some, hm₂, Option.bind_some, hm₃]
  · rw [addrs, List.map_append, List.nodup_append]
    refine ⟨hnodup, List.nodup_singleton _, ?_⟩
    intro q hq q' hq'
    rw [List.mem_singleton.mp hq']
    exact hne q hq
  · apply seg_append.mpr
    refine ⟨some p, last, hseg₃, rfl, some h, ?_, rfl, rfl⟩
    rw [hframe₃ p hph.symm, hframe₂ p hzp.symm, hm₁, Function.update_self]
  · intro q hq
    rw [addrs, List.map_append, List.mem_append, not_or] at hq
    have hqh : q ≠ h := fun heq => hq.1 (heq ▸ List.mem_cons_self ..)
    have hqz : q ≠ z.1 := fun heq => hq.1 (by rw [heq, hz]; simp)
    have hqp : q ≠ p := fun heq => hq.2 (heq ▸ List.mem_singleton_self _)
    rw [hframe₃ q hqh, hframe₂ q hqz, hm₁, Function.update_of_ne hqp]

/-- **`bypass` the head** of a ring of two cells or more takes it out. -/
theorem Ring.bypass_head {p : π} {a : α} (hr : m.Ring (some p) ((p, a) :: l)) (hl : l ≠ []) :
    ∃ m', m.bypass p = some m' ∧ m'.Ring (addrs l).head? l ∧
      ∀ q, q ∉ addrs l → m' q = m q := by
  obtain ⟨hnodup, -, last, -, n, hp, hseg⟩ := hr
  rw [addrs_cons, List.nodup_cons] at hnodup
  obtain ⟨x, r, rfl⟩ := List.exists_cons_of_ne_nil hl
  obtain ⟨r', z, hz⟩ := List.eq_nil_or_concat (x :: r) |>.resolve_left hl
  rw [List.concat_eq_append] at hz
  have hn : n = some x.1 := hseg.1
  -- the head and the last cell of the rest, which are linked to each other
  have hlast : last = some z.1 := by
    rw [hseg.last_eq, hz, addrs, List.map_append, List.map_singleton, List.getLast?_concat]
    rfl
  have hpx : p ≠ x.1 := fun heq => hnodup.1 (heq ▸ List.mem_cons_self ..)
  obtain ⟨m₁, hm₁, hseg₁, hframe₁⟩ := hseg.setPrev_head hnodup.2 last
  obtain ⟨m₂, hm₂, hseg₂, hframe₂⟩ :=
    (hz ▸ hseg₁ : m₁.Seg _ _ (r' ++ [z]) _ _).setNext_last (hz ▸ hnodup.2) n
  refine ⟨m₂, ?_, ⟨hnodup.2, rfl, last, ?_⟩, ?_⟩
  · rw [Heap.bypass, hp, Option.bind_some, hn, Option.bind_some, hm₁, Option.bind_some,
      hframe₁ p hpx, hp, Option.bind_some, hlast, Option.bind_some]
    exact hm₂
  · rw [← hz, hn] at hseg₂
    exact hseg₂
  · intro q hq
    have hqx : q ≠ x.1 := fun heq => hq (heq ▸ List.mem_cons_self ..)
    have hqz : q ≠ z.1 := fun heq => hq (by rw [heq, hz]; simp)
    rw [hframe₂ q hqz, hframe₁ q hqx]

/-- **`bypass`** takes one cell out of the ring. -/
theorem Ring.bypass {p : π} {a : α} (hr : m.Ring head (l ++ (p, a) :: l')) (hne : l ++ l' ≠ []) :
    ∃ m', m.bypass p = some m' ∧ m'.Ring (addrs (l ++ l')).head? (l ++ l') ∧
      ∀ q, q ∉ addrs (l ++ l') → m' q = m q := by
  have hrot : m.Ring (some p) ((p, a) :: (l' ++ l)) := hr.rotate
  have hne' : l' ++ l ≠ [] := by
    rw [ne_eq, List.append_eq_nil_iff] at hne ⊢
    exact fun h => hne h.symm
  obtain ⟨m', hm', hring, hframe⟩ := hrot.bypass_head hne'
  refine ⟨m', hm', hring.rotate, fun q hq => hframe q fun hq' => hq ?_⟩
  rw [addrs, List.map_append, List.mem_append] at hq' ⊢
  exact hq'.symm

/-- **Writing a value** changes the ring at its position. -/
theorem Ring.setVal (hr : m.Ring head l) {i : ℕ} {x : π × α} (hx : l[i]? = some x) (f : α → α) :
    ∃ m', m.setVal x.1 f = some m' ∧ m'.Ring head (l.set i (x.1, f x.2)) ∧
      ∀ q, q ≠ x.1 → m' q = m q := by
  obtain ⟨hnodup, hhead, last, hseg⟩ := hr
  obtain ⟨hi, rfl⟩ := List.getElem?_eq_some_iff.mp hx
  obtain ⟨m', hm', hseg', hframe⟩ := hseg.setVal hnodup (List.mem_map_of_mem (List.getElem_mem hi)) f
  -- the address picks out the position
  have hset : (l.map fun y => if y.1 = l[i].1 then (y.1, f y.2) else y)
      = l.set i (l[i].1, f l[i].2) := by
    apply List.ext_getElem (by simp)
    intro j hj hj'
    rw [List.length_map] at hj
    rw [List.getElem_map, List.getElem_set]
    by_cases hij : i = j
    · subst hij
      rw [if_pos rfl, if_pos rfl]
    · have hne : l[j].1 ≠ l[i].1 := by
        intro heq
        have hidx : (addrs l)[i]? = (addrs l)[j]? := by
          rw [List.getElem?_map, List.getElem?_map, hx, List.getElem?_eq_getElem hj,
            Option.map_some, Option.map_some, heq]
        exact hij ((List.getElem?_inj (by simpa using hi) hnodup).mp hidx)
      rw [if_neg hne, if_neg hij]
  have haddrs := addrs_set hx (f l[i].2)
  rw [hset] at hseg'
  refine ⟨m', hm', ⟨haddrs ▸ hnodup, haddrs ▸ hhead, last, hseg'⟩, hframe⟩

end MuseKv.General.Heap
