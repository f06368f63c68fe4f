import Bylaw.Keyed
import Bylaw.Text.Blank
import Bylaw.Text.Percent

/-! Query strings: names and values in the encoding of forms. -/

namespace Bylaw.Query

def decode (cs : List Char) : String :=
  let bytes := Utf8.encode (.ofList (cs.map fun c => if c = '+' then ' ' else c))
  .ofList (Utf8.decodeLossy (Percent.decode bytes))

/-- Reads a pair; without an equals sign it is a name with an empty value. -/
def pair (cs : List Char) : String × String :=
  (decode (cs.takeWhile (· ≠ '=')), decode ((cs.dropWhile (· ≠ '=')).drop 1))

def read (query : String) : List (String × String) :=
  ((Text.splitAt (· == '&') query.toList).filter (· ≠ [])).map pair

/-- The values by name; of two values of one name the second counts. -/
def fields (query : String) : Keyed String := .ofList (read query)

/-- Whether a byte is written as the character that it encodes. -/
def isPlain (b : UInt8) : Bool :=
  let c := Char.ofNat b.toNat
  b.toNat < 0x80 && (c.isAlphanum || c == '*' || c == '-' || c == '.' || c == '_')

def encodeByte (b : UInt8) : List Char :=
  if isPlain b then [.ofNat b.toNat]
  else if b.toNat = ' '.toNat then ['+']
  else Percent.escape b

def encode (s : String) : List Char := (Utf8.encode s).flatMap encodeByte

def write (pairs : List (String × String)) : String :=
  .ofList (['&'].intercalate (pairs.map fun (name, value) => encode name ++ '=' :: encode value))

end Bylaw.Query
