import MuseKv.Encrypt.Basic
import MuseKv.Kvstore.Text

/-!
# `encrypt_string` and `decrypt_string`

An encrypted string is the number of every byte with a backslash behind it; `decrypt_string` splits it
there and decrypts the pieces.  On the text of a command these are `encryptString` and `decryptString`;
on a longer text an `int` may overflow (`encryptText`, `decryptText`).
-/

namespace MuseKv.Encrypt

open General Kvstore

/-- The loop of `decrypt_string` over the pieces.  The inner `none` is a piece that is no number;
`strtoint` throws on an empty one, and its index overflows on a long one. -/
def decryptWords (N d : Int) : List Str → Option (Option Str)
  | [] => some (some [])
  | word :: words =>
    match readInt word with
    | none => none
    | some (false, _) => some none
    | some (true, x) =>
      (decryptWords N d words).map <| Option.map fun message => decrypt N d x :: message

/-- `decrypt_string`: the last piece is the empty one behind the last backslash.  The empty string has
no piece, and `words[len - 1]` is then in front of the buffer. -/
def decryptString (N d : Int) (encryptedMessage : Str) : Option Str :=
  if encryptedMessage = [] then none
  else (decryptWords N d (split encryptedMessage (byte '\\')).dropLast).map fun
    | none => lit "THIS LINE IS CRACKED"
    | some words => cString words

/-- `encrypt_string`, with the fault of its index: `i++` overflows from `2^31` characters on. -/
def encryptText (N e : Int) (message : Str) : Option Str :=
  if message.length < 2 ^ 31 then some (encryptString N e message) else none

/-- `decrypt_string`, with the fault of `split`. -/
def decryptText (N d : Int) (encryptedMessage : Str) : Option Str :=
  if Splittable encryptedMessage (byte '\\') then decryptString N d encryptedMessage else none

/-- The product of `encrypt` in round `i`, before it is reduced. -/
def encryptProduct (N : Int) (message : UInt8) (i : ℕ) : ℕ :=
  powMod (2 ^ 64) (wrapU64 N) message.toNat i * message.toNat

/-- The product of `decrypt` in round `i`, before it is reduced. -/
def decryptProduct (N encryptedMessage : Int) (i : ℕ) : ℕ :=
  powMod (2 ^ 64) (wrapU64 N) (wrapU64 encryptedMessage) i * wrapU64 encryptedMessage

end MuseKv.Encrypt
