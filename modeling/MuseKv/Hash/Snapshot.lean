import MuseKv.Hash.Basic
import MuseKv.Encrypt.Text
import MuseKv.General.Tokens

/-!
# `Hash::save` and `Hash::read`

The snapshot file `<port>.csv`: a line for each entry, and in it every byte of the record
`dtype,authw,authr,key,value` as its encrypted number with a backslash behind it.  A fault of the
program is the outer `none` of a result.  A record may be longer than an `int` can count.
-/

namespace MuseKv

open General Kvstore Encrypt

/-- The text `get_kv_str` puts for the type. -/
def Dtype.code : Dtype → Str
  | .string => lit "0"
  | .list => lit "1"
  | .set => lit "2"
  | .hashmap => lit "3"

/-- `get_kv_str`. -/
def Kv.getKvStr (k : Str) (n : Kv) : Option Str :=
  n.v.dataDecode.map fun v =>
    merge (byte ',') [n.v.dataDtype.code, toStr n.authw.toNat, toStr n.authr.toNat, k, v]

namespace Hash

/-! ### Writing -/

/-- The line `save` writes for a record; its inner loop writes what `encrypt_string` returns, with an
index of its own that is an `int` too. -/
def encryptLine (str : Str) : Option Str :=
  (encryptText modulus exponent str).map fun line => line ++ [10]

/-- The record of an entry whose value is set. -/
def record (e : Str × Kv) : Str := (Kv.getKvStr e.1 e.2).getD []

/-- An entry that can be written: the value is set, and the record has fewer characters than an `int`
counts. -/
def Printable (e : Str × Kv) : Prop :=
  (∃ x, e.2.v.dataDecode = some x) ∧ (record e).length < 2 ^ 31

/-- The lines of a sequence of entries. -/
def saveEntries : List (Str × Kv) → Option Str
  | [] => some []
  | e :: es =>
    (Kv.getKvStr e.1 e.2).bind fun str =>
      (encryptLine str).bind fun line => (saveEntries es).map (line ++ ·)

/-- The text `save` writes: the entries chain by chain. -/
def saveText (h : Hash) : Option Str := saveEntries h.entries

/-! ### Reading -/

/-- The decrypting loop of `read` over `data_splited[0 .. len - 2]`.  The inner `none` is a piece
that is no number; `strtoint` throws on an empty one, and its index overflows on a long one. -/
def decryptPieces (password : Int) : List Str → Option (Option Str)
  | [] => some (some [])
  | piece :: pieces =>
    match readInt piece with
    | none => none
    | some (false, _) => some none
    | some (true, x) =>
      (decryptPieces password pieces).map <| Option.map fun message =>
        decrypt modulus password x :: message

/-- The message of a line, up to the first NUL. -/
def decryptLine (password : Int) (line : Str) : Option (Option Str) :=
  (splitArray line (byte '\\')).bind fun pieces =>
    (decryptPieces password pieces.dropLast).map (Option.map cString)

/-- The value of a record, for the type code it starts with.  A `String` keeps `args[4]` only, and
another code leaves the default value. -/
def readValue (dtype : Int) (arg : Str) (args : List Str) : Option Value :=
  if dtype = 0 then Value.dataEncode arg .string
  else if dtype = 1 then Value.dataEncode (joinArgs arg args) .list
  else if dtype = 2 then Value.dataEncode (joinArgs arg args) .set
  else if dtype = 3 then Value.dataEncode (joinArgs arg args) .hashmap
  else some .unset

/-- A record taken apart: key, value, `authr`, `authw`.  The inner `none` is a damaged record.  A message
is shorter than the `int len` of its line, so no `int` overflows on it. -/
def readRecord (message : Str) : Option (Option (Str × Value × UInt8 × UInt8)) :=
  match split message (byte ',') with
  | a0 :: a1 :: a2 :: key :: arg :: args =>
    match strtoint a0, strtoint a1, strtoint a2 with
    | some (b0, dtype), some (b1, authw), some (b2, authr) =>
      -- the range test on `dtype` is written with `&&` and holds of no number
      if !b0 || !b1 || !b2 || (dtype < 0 && dtype > 3) then some none
      else (readValue dtype arg args).map fun value => some (key, value, toU8 authr, toU8 authw)
    | _, _, _ => none
  | _ => some none

/-- The loop of `read` over the lines of the file. -/
def readLines (password : Int) : List Str → Hash → Option (Bool × Hash)
  | [], h => some (true, h)
  | line :: lines, h =>
    match decryptLine password line with
    | none => none
    | some none => some (false, h)
    | some (some message) =>
      match readRecord message with
      | none => none
      | some none => some (false, h)
      | some (some (key, value, authr, authw)) =>
        readLines password lines (h.set key value authr authw)

/-- `read(pw)`, where `csv` is the text of the file, if there is one. -/
def read (h : Hash) (csv : Option Str) (pw : Str) : Option (Bool × Hash) :=
  match csv with
  | none => some (false, h)
  | some text =>
    match readInt pw with
    | none => none
    | some (false, _) => some (false, h)
    | some (true, password) => readLines password (tokens isSpace text) h

end Hash

/-- A table with the file `<port>.csv` that belongs to it.  `writable` tells whether opening the
file for output succeeds. -/
structure World where
  h : Hash
  csv : Option Str
  writable : Bool

namespace World

/-- The empty table of a port, with no file yet. -/
def fresh (port : Int) : World where
  h := Hash.new port
  csv := none
  writable := true

/-- `save`. -/
def save (w : World) : Option (Bool × World) :=
  if w.writable then w.h.saveText.map fun text => (true, { w with csv := some text })
  else some (false, w)

/-- `read`. -/
def read (w : World) (pw : Str) : Option (Bool × World) :=
  (w.h.read w.csv pw).map fun r => (r.1, { w with h := r.2 })

end World

end MuseKv
