import Bylaw.Number
import Bylaw.Text.Blank

/-! Numerals in texts: whole numbers with an optional sign, and doubles. -/

namespace Bylaw.Text

/-- The number that a text of one or more decimal digits denotes. -/
def digits? (cs : List Char) : Option Nat :=
  if cs.isEmpty || !cs.all Char.isDigit then none else some (Decimal.ofDigitChars cs)

/-- A whole number below `bound`, with an optional plus sign. -/
def nat? (bound : Nat) (cs : List Char) : Option Nat :=
  let body := match cs with
    | '+' :: rest => rest
    | rest => rest
  (digits? body).filter (· < bound)

/-- A whole number that fits 64 bits. -/
def uint64? (cs : List Char) : Option Nat := nat? 0x10000000000000000 cs

/-- A whole number that fits 16 bits. -/
def uint16? (cs : List Char) : Option Nat := nat? 0x10000 cs

/-- A whole number that fits a signed 64-bit word, with an optional sign. -/
def int64? (cs : List Char) : Option Int :=
  let value : Option Int := match cs with
    | '-' :: rest => (digits? rest).map fun n => -(n : Int)
    | '+' :: rest => (digits? rest).map fun n => (n : Int)
    | rest => (digits? rest).map fun n => (n : Int)
  value.filter fitsInt64

/-- An exponent: its sign and one or more digits. -/
def exponent? (cs : List Char) : Option Int :=
  match cs with
  | '-' :: rest => (digits? rest).map fun n => -(n : Int)
  | '+' :: rest => (digits? rest).map fun n => (n : Int)
  | rest => (digits? rest).map fun n => (n : Int)

/-- The parts of a decimal numeral without sign: the digits before the point, those after it, and
the exponent. One digit at least stands before or after the point. -/
def decimalParts? (cs : List Char) : Option (List Char × List Char × Int) :=
  let whole := cs.takeWhile Char.isDigit
  let (fraction, rest) := match cs.dropWhile Char.isDigit with
    | '.' :: rest => (rest.takeWhile Char.isDigit, rest.dropWhile Char.isDigit)
    | rest => ([], rest)
  if whole.isEmpty && fraction.isEmpty then none
  else
    match rest with
    | [] => some (whole, fraction, 0)
    | c :: rest =>
      if c = 'e' ∨ c = 'E' then (exponent? rest).map fun e => (whole, fraction, e) else none

/-- The double nearest to a decimal numeral with an optional sign, if that is finite. The spellings
of infinity and of no number are no numerals. -/
def double? (cs : List Char) : Option Binary64 :=
  let (negative, body) := match cs with
    | '-' :: rest => (true, rest)
    | '+' :: rest => (false, rest)
    | rest => (false, rest)
  (decimalParts? body).bind fun (whole, fraction, exponent) =>
    Binary64.ofDecimal negative (Decimal.ofDigitChars (whole ++ fraction))
      (exponent - fraction.length)

end Bylaw.Text
