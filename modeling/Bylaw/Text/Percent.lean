import Bylaw.Json.Reader
import Bylaw.Text.Utf8

/-! Percent escapes: a byte as a percent sign and two hexadecimal digits. -/

namespace Bylaw.Percent

def byte? (high low : UInt8) : Option UInt8 :=
  match Json.hexValue? (.ofNat high.toNat), Json.hexValue? (.ofNat low.toNat) with
  | some h, some l => some (.ofNat (h * 16 + l))
  | _, _ => none

/-- Reads the escapes; a percent sign that begins none stands for itself. -/
def decode : List UInt8 → List UInt8
  | [] => []
  | [b] => [b]
  | [b, c] => [b, c]
  | b :: high :: low :: rest =>
    if b.toNat = '%'.toNat then
      match byte? high low with
      | some byte => byte :: decode rest
      | none => b :: decode (high :: low :: rest)
    else b :: decode (high :: low :: rest)

/-- A hexadecimal digit, in capitals. -/
def digit (n : Nat) : Char := "0123456789ABCDEF".toList.getD n '0'

def escape (b : UInt8) : List Char := ['%', digit (b.toNat / 16), digit (b.toNat % 16)]

/-- The text with its escapes read, if they make up characters. -/
def decodeText? (s : String) : Option String := Utf8.decode? (decode (Utf8.encode s))

end Bylaw.Percent
