import MuseKv.Kvstore.Text

/-!
# `linkedlist::List`

The list type of the store, as the sequence of the contents of its nodes from `head` on.
-/

namespace MuseKv.Linkedlist

open Kvstore

def pushFront (l : List Str) (content : Str) : List Str := content :: l

def pushBack (l : List Str) (content : Str) : List Str := l ++ [content]

/-- `pop_front`: the empty string, and no change, on the empty list. -/
def popFront : List Str → Str × List Str
  | [] => ([], [])
  | content :: l => (content, l)

/-- `pop_back`: the empty string, and no change, on the empty list. -/
def popBack (l : List Str) : Str × List Str := (l.getLast?.getD [], l.dropLast)

/-- The position `at(index)` walks to in a list of `length ≥ 1` nodes: `index % length` steps
forward from `head`, or `(-index) % length` steps backward for a negative index.  Negating the least
`int` overflows to itself, and the loop bound is then not positive. -/
def position (index : Int) (length : ℕ) : ℕ :=
  if 0 ≤ index then (index.tmod length).toNat
  else (length - ((wrap32 (-index)).tmod length).toNat) % length

/-- `get`: `at` returns `NULL` on the empty list, and dereferencing it is a fault (`none`). -/
def get (l : List Str) (index : Int) : Option Str := l[position index l.length]?

/-- `set`, as `get`. -/
def set (l : List Str) (index : Int) (content : Str) : Option (List Str) :=
  if l = [] then none else some (l.set (position index l.length) content)

/-- `del`: `false`, and no change, on the empty list. -/
def del (l : List Str) (index : Int) : Bool × List Str :=
  if l = [] then (false, l) else (true, l.eraseIdx (position index l.length))

/-- `find`: the first position of a content, or `-1`. -/
def find (l : List Str) (content : Str) : Int := (l.idxOf? content).elim (-1) fun i => (i : Int)

/-- `print`. -/
def print (l : List Str) : Str := merge (byte ',') l

theorem position_lt {l : List Str} (h : l ≠ []) (index : Int) :
    position index l.length < l.length := by
  have hpos : 0 < l.length := List.length_pos_iff.mpr h
  unfold position
  split_ifs
  · have := Int.tmod_lt_of_pos index (show (0 : Int) < l.length by exact_mod_cast hpos)
    omega
  · exact Nat.mod_lt _ hpos

/-- `get` on a non-empty list never dereferences `NULL`. -/
theorem exists_get {l : List Str} (h : l ≠ []) (index : Int) :
    ∃ x, get l index = some x ∧ x ∈ l := by
  have hlt := position_lt h index
  exact ⟨l[position index l.length], by rw [get, List.getElem?_eq_getElem hlt],
    List.getElem_mem hlt⟩

end MuseKv.Linkedlist
