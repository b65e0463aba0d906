import MuseKv.Hash.Snapshot

/-!
# What `Hash::read` makes of an arbitrary file

`read` takes the file line by line and enters the record of a line before it looks at the next one.
`Loads` lists the records it enters, up to the end of the file or to the first damaged line.  A line
can also be neither: an empty token is handed to `strtoint`, which throws, and a type code outside
`0 .. 3` passes the test of the range.
-/

namespace MuseKv

open General Kvstore

namespace Hash

/-- A record of the file: key, value, `authr`, `authw`. -/
abbrev Record := Str × Value × UInt8 × UInt8

/-- The call of `set` at the end of the loop of `read`. -/
def enter (h : Hash) (r : Record) : Hash := h.set r.1 r.2.1 r.2.2.1 r.2.2.2

/-- The body of the loop up to that call.  The inner `none` is a damaged line. -/
def readLine (password : Int) (line : Str) : Option (Option Record) :=
  match decryptLine password line with
  | none => none
  | some none => some none
  | some (some message) => readRecord message

/-- The records that the loop enters, and what `read` returns behind them. -/
inductive Loads (password : Int) : List Str → Bool → List Record → Prop
  | done : Loads password [] true []
  | damaged {line : Str} {lines : List Str} (h : readLine password line = some none) :
      Loads password (line :: lines) false []
  | entered {line : Str} {lines : List Str} {r : Record} {b : Bool} {rs : List Record}
      (h : readLine password line = some (some r)) (hrest : Loads password lines b rs) :
      Loads password (line :: lines) b (r :: rs)

/-- The records that `read(pw)` enters, and what it returns. -/
def Reads (csv : Option Str) (pw : Str) (b : Bool) (rs : List Record) : Prop :=
  match csv with
  | none => b = false ∧ rs = []
  | some text =>
    match readInt pw with
    | none => False
    | some (false, _) => b = false ∧ rs = []
    | some (true, password) => Loads password (tokens isSpace text) b rs

/-! ### Lines without a fault -/

/-- A text that `strtoint` takes for a number. -/
def IsInt (s : Str) : Prop := ∃ x, strtoint s = some (true, x)

/-- A message of five fields or more, the first three of them numbers. -/
def CompleteRecord (message : Str) : Prop :=
  match split message (byte ',') with
  | a0 :: a1 :: a2 :: _ :: _ :: _ => IsInt a0 ∧ IsInt a1 ∧ IsInt a2
  | _ => False

/-- A line that is not damaged. -/
def Complete (password : Int) (line : Str) : Prop :=
  ∃ message, decryptLine password line = some (some message) ∧ CompleteRecord message

/-- A message with no empty number, no foreign type code, and no collection of nothing. -/
def HarmlessRecord (message : Str) : Prop :=
  match split message (byte ',') with
  | a0 :: a1 :: a2 :: _ :: arg :: args =>
    (a0 ≠ [] ∧ a1 ≠ [] ∧ a2 ≠ []) ∧
      ∀ dtype authw authr, strtoint a0 = some (true, dtype) → strtoint a1 = some (true, authw) →
        strtoint a2 = some (true, authr) →
          (0 ≤ dtype ∧ dtype ≤ 3) ∧ (dtype = 0 ∨ arg ≠ [] ∨ args ≠ [])
  | _ => True

/-- A line whose pieces can be counted, with no piece that is empty or too long in front of the first piece
that is no number, and whose message is harmless. -/
def HarmlessLine (password : Int) (line : Str) : Prop :=
  Splittable line (byte '\\') ∧
    (∀ pre piece post, (split line (byte '\\')).dropLast = pre ++ piece :: post →
      piece = [] ∨ ¬ Indexable piece → ∃ x ∈ pre, ¬ IsInt x) ∧
    ∀ message, decryptLine password line = some (some message) → HarmlessRecord message

/-- Every line up to the first damaged one is harmless. -/
def HarmlessFile (password : Int) (text : Str) : Prop :=
  ∀ pre line post, tokens isSpace text = pre ++ line :: post →
    (∀ l ∈ pre, Complete password l) → HarmlessLine password line

/-- `read` returns, and every record that it entered has a value that is set. -/
def SafelyReads (h : Hash) (csv : Option Str) (pw : Str) : Prop :=
  ∃ b rs, Reads csv pw b rs ∧ h.read csv pw = some (b, rs.foldl enter h) ∧
    ∀ r ∈ rs, r.2.1.isUnset = false

/-! ### Damage -/

/-- The records in front of the damage: none without a file or a password that is a number, and else
those of the lines in front of the first damaged one. -/
def BeforeDamage (csv : Option Str) (pw : Str) (rs : List Record) : Prop :=
  (rs = [] ∧ (csv = none ∨ ∃ x, strtoint pw = some (false, x))) ∨
    ∃ text password pre line post, csv = some text ∧ strtoint pw = some (true, password) ∧
      tokens isSpace text = pre ++ line :: post ∧ readLine password line = some none ∧
      List.Forall₂ (fun l r => readLine password l = some (some r)) pre rs

end Hash

end MuseKv
