import MuseKv.Str
import MuseKv.General.Tokens

/-!
# `split`, `merge`, `trim` and `strtoint`

The four text routines of `kvstore.cpp`, as they are on the text of a command, which has 1024 bytes at
most.  On a longer text, which a list or a file can give, an `int` of `split` or `strtoint` may overflow:
`splitArray` and `readInt` are the routines with these faults.
-/

namespace MuseKv.Kvstore

open General

/-- `split(str, token, splited, len)`: the array it fills.  For the empty string `len` is `0` and
no array is allocated; a caller that deletes the array then deletes an unset pointer. -/
def split (str : Str) (token : UInt8) : List Str :=
  if str = [] then [] else str.splitOn token

/-- The pieces are counted by an `int`, with an index of the type `unsigned int`. -/
def Splittable (str : Str) (token : UInt8) : Prop :=
  str.length < 2 ^ 32 ∧ str.count token + 1 < 2 ^ 31

instance (str : Str) (token : UInt8) : Decidable (Splittable str token) :=
  inferInstanceAs (Decidable (_ ∧ _))

/-- `split`, with the fault of a count that overflows. -/
def splitArray (str : Str) (token : UInt8) : Option (List Str) :=
  if Splittable str token then some (split str token) else none

/-- `merge(str, token, splited, len)`: the string it leaves in `str`. -/
def merge (token : UInt8) (splited : List Str) : Str := [token].intercalate splited

/-- The loop `str = str + "," + args[i]` over the arguments behind the first one. -/
def joinArgs (str : Str) (args : List Str) : Str :=
  args.foldl (fun str arg => str ++ byte ',' :: arg) str

def isBlank (c : UInt8) : Bool := c == byte ' '

/-- `trim`: the first loop finds the leading blanks, the second the trailing ones, and the third
erases a blank as long as the next character is a blank too. -/
def trim (str : Str) : Str := squeeze isBlank ((str.dropWhile isBlank).rdropWhile isBlank)

/-- The arguments of a command line: `split(trim(com), ' ', args, num_args)`. -/
def words (com : Str) : List Str := split (trim com) (byte ' ')

/-- The loop of `strtoint`: `none` at a character that is no digit. -/
def strtointLoop : Str → Int → Option Int
  | [], res => some res
  | c :: str, res =>
    if isDigit c then strtointLoop str (wrap32 (wrap32 (res * 10) + digitVal c)) else none

/-- What `strtoint` returns after its loop. -/
def strtointResult (sgn : Int) : Option Int → Bool × Int
  | none => (false, 0)
  | some res => (true, wrap32 (sgn * res))

/-- `strtoint`.  `str.at(0)` throws on the empty string (`none`). -/
def strtoint : Str → Option (Bool × Int)
  | [] => none
  | c :: str =>
    if c = byte '-' then some (strtointResult (-1) (strtointLoop str 0))
    else some (strtointResult 1 (strtointLoop (c :: str) 0))

/-- Where the loop of `strtoint` begins: behind a minus sign. -/
def signLength (str : Str) : ℕ := if str.head? = some (byte '-') then 1 else 0

/-- What is behind the sign. -/
def unsigned (str : Str) : Str := if str.head? = some (byte '-') then str.tail else str

/-- The digits that the loop gets to. -/
def leadingDigits (str : Str) : Str := (unsigned str).takeWhile isDigit

/-- The index behind the leading digits is an `int`. -/
def Indexable (str : Str) : Prop := signLength str + (leadingDigits str).length < 2 ^ 31

instance (str : Str) : Decidable (Indexable str) := inferInstanceAs (Decidable (_ < _))

/-- `strtoint`, with the fault of an index that overflows. -/
def readInt (str : Str) : Option (Bool × Int) := if Indexable str then strtoint str else none

end MuseKv.Kvstore
