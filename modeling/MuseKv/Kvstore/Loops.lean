import MuseKv.Kvstore.Text

/-!
# The loops of `kvstore.cpp`

`trim`, `split`, `merge` and `strtoint` with their indices and their array, as the source writes them.
`Text` has what they compute.  An `int` holds the numbers below `2^31`: a step beyond is a fault, as are
an access outside the array and an `erase` outside the string.
-/

namespace MuseKv.Kvstore.Loops

/-! ### `trim` -/

/-- `str[i]`: the terminating `0` behind the end, and `before` in front of the first character. -/
def charAt (before : UInt8) (str : Str) (i : Int) : UInt8 :=
  if i < 0 then before else str.getD i.toNat 0

/-- `while(str[i] == ' ' && i < str.length()) i++;`. -/
def skipLoop (before : UInt8) (str : Str) (i : ℕ) : Option ℕ :=
  if charAt before str i = byte ' ' ∧ i < str.length then
    if i + 1 < 2 ^ 31 then skipLoop before str (i + 1) else none
  else some i
termination_by str.length - i

/-- `while(str[i] == ' ' && i >= 0) i--;`. -/
def backLoop (before : UInt8) (str : Str) (i : Int) : Int :=
  if charAt before str i = byte ' ' ∧ i ≥ 0 then backLoop before str (i - 1) else i
termination_by (i + 1).toNat

/-- `str.erase(i + 1);`: the sum overflows behind the last `int`, and a position outside the string
throws. -/
def eraseBehind (str : Str) (i : Int) : Option Str :=
  if 0 ≤ i + 1 ∧ i + 1 ≤ str.length ∧ i + 1 < 2 ^ 31 then some (str.take (i + 1).toNat) else none

/-- The bound `int(str.length() - 1)` of the third loop is below the length. -/
theorem lt_length_of_lt_wrap32 {str : Str} {i : ℕ} (h : (i : Int) < wrap32 ((str.length : Int) - 1)) :
    i + 1 < str.length := by
  have hle := wrap32_le_self (x := (str.length : Int) - 1) (by omega)
  omega

/-- `for(i = 0; i < int(str.length() - 1); i++)`: a blank in front of a blank is erased, and the index
steps back, perhaps to `-1`, before it steps on. -/
def squeezeLoop (before : UInt8) (str : Str) (i : ℕ) : Str :=
  if (i : Int) < wrap32 ((str.length : Int) - 1) then
    if charAt before str i = byte ' ' ∧ charAt before str (i + 1) = byte ' ' then
      squeezeLoop before (str.eraseIdx i) ((i : Int) - 1 + 1).toNat
    else squeezeLoop before str (i + 1)
  else str
termination_by str.length - i
decreasing_by
  · have := lt_length_of_lt_wrap32 ‹_›
    rw [List.length_eraseIdx_of_lt (by omega)]
    omega
  · have := lt_length_of_lt_wrap32 ‹_›
    omega

/-- `trim`.  The assignment `i = str.length() - 1` cuts the length down to an `int`. -/
def trimLoop (before : UInt8) (str : Str) : Option Str :=
  if str = [] then some str
  else
    (skipLoop before str 0).bind fun i =>
      let str := str.drop i
      (eraseBehind str (backLoop before str (wrap32 ((str.length : Int) - 1)))).map fun str =>
        squeezeLoop before str 0

/-! ### `split` and `merge` -/

/-- What `split` leaves in its two reference parameters.  For the empty string no array is allocated,
and the pointer stays as it was.  A cell is `none` until it is written. -/
structure Splited where
  len : ℕ
  cells : Option (List (Option Str))

/-- `for(unsigned int i = 0; i < str.length(); i++) if(str.at(i) == token) len++;`.  From `2^32`
characters on the index is `0` again before it gets to the end. -/
def countLoop (token : UInt8) : Str → ℕ → ℕ → Option ℕ
  | [], _, len => some len
  | c :: str, i, len =>
    if c = token ∧ 2 ^ 31 ≤ len + 1 then none
    else if 2 ^ 32 ≤ i + 1 then none
    else countLoop token str (i + 1) (if c = token then len + 1 else len)

/-- `splited[index] = str;`: behind the end of the array a fault. -/
def writeCell (cells : List (Option Str)) (index : ℕ) (str : Str) : Option (List (Option Str)) :=
  if index < cells.length then some (cells.set index (some str)) else none

/-- `while(true)`, and the assignment behind the loop.  The position that `find` returns is that of the
first `token`, if there is one. -/
def cutLoop (token : UInt8) (str : Str) (index : ℕ) (cells : List (Option Str)) :
    Option (List (Option Str)) :=
  if token ∈ str then
    let pos := str.idxOf token
    (writeCell cells index (str.take pos)).bind fun cells =>
      if index + 1 < 2 ^ 31 then cutLoop token (str.drop (pos + 1)) (index + 1) cells else none
  else writeCell cells index str
termination_by str.length
decreasing_by
  rw [List.length_drop]
  have := List.idxOf_lt_length_iff.mpr ‹token ∈ str›
  omega

/-- `split`. -/
def splitLoop (str : Str) (token : UInt8) : Option Splited :=
  if str = [] then some ⟨0, none⟩
  else
    (countLoop token str 0 1).bind fun len =>
      (cutLoop token str 0 (List.replicate len none)).map fun cells => ⟨len, some cells⟩

/-- `for(int i = 1; i < len; i++) str += token + splited[i];`. -/
def appendLoop (token : UInt8) : Str → ℕ → List Str → Option Str
  | str, _, [] => some str
  | str, i, x :: splited =>
    if i + 1 < 2 ^ 31 then appendLoop token (str ++ token :: x) (i + 1) splited else none

/-- `merge`, where `len` is the length of the array: the number of its strings is an `int`. -/
def mergeLoop (token : UInt8) : List Str → Option Str
  | [] => some []
  | x :: splited => appendLoop token x 1 splited

/-! ### `strtoint` -/

/-- The loop of `strtoint` from the index `i` on.  The inner `none` is a character that is no digit. -/
def indexLoop : Str → ℕ → Int → Option (Option Int)
  | [], _, res => some (some res)
  | c :: str, i, res =>
    if isDigit c then
      if i + 1 < 2 ^ 31 then indexLoop str (i + 1) (wrap32 (wrap32 (res * 10) + digitVal c)) else none
    else some none

/-- `strtoint`, with its index. -/
def strtointIndexed : Str → Option (Bool × Int)
  | [] => none
  | c :: str =>
    if c = byte '-' then (indexLoop str 1 0).map (strtointResult (-1))
    else (indexLoop (c :: str) 0 0).map (strtointResult 1)

/-- The exact results of the operations of the loop on `int`s: of `res * 10`, of the sum, and of `i++`. -/
def loopResults : Str → ℕ → Int → List Int
  | [], _, _ => []
  | c :: str, i, res =>
    if isDigit c then
      res * 10 :: (wrap32 (res * 10) + digitVal c) :: (i + 1 : ℕ) ::
        loopResults str (i + 1) (wrap32 (wrap32 (res * 10) + digitVal c))
    else []

/-- The exact results of the operations of `strtoint` on `int`s: those of its loop, and `sgn * res`. -/
def intResults (str : Str) : List Int :=
  match str with
  | [] => []
  | c :: rest =>
    if c = byte '-' then loopResults rest 1 0 ++ (strtointLoop rest 0).toList.map fun res => -1 * res
    else loopResults str 0 0 ++ (strtointLoop str 0).toList.map fun res => 1 * res

end MuseKv.Kvstore.Loops
