import Bylaw.Text.Blank
import Bylaw.Number

/-! Calendar dates as day numbers, and their civil form in the Gregorian calendar, which is extended
to all years. Years of the calculation begin in March, so that a leap day is the last of its
year. -/

namespace Bylaw

/-- A day, counted from the first of January 1970. It lies between the first day of the year -262143
and the last of the year 262142. -/
structure Date where
  day : Int
  lower : -96465292 ≤ day
  upper : day ≤ 95026236
  deriving DecidableEq

namespace Date

def ofDay? (day : Int) : Option Date :=
  if h : -96465292 ≤ day ∧ day ≤ 95026236 then some ⟨day, h.1, h.2⟩ else none

/-- The number of the day before the first of the given month, counted from March, within a year
that begins in March. -/
def daysBefore (month : Int) : Int := (153 * month + 2) / 5

/-- Days from the first of March of the year 0 to the first of January 1970. -/
def epochShift : Int := 719468

/-- The number of a day of the civil calendar. -/
def dayOfCivil (year month day : Int) : Int :=
  let y := if month ≤ 2 then year - 1 else year
  let ofEra := y % 400
  let ofYear := daysBefore ((month + 9) % 12) + day - 1
  y / 400 * 146097 + (ofEra * 365 + ofEra / 4 - ofEra / 100 + ofYear) - epochShift

/-- A day in the civil calendar. -/
structure Civil where
  year : Int
  month : Int
  day : Int
  deriving DecidableEq

/-- The civil form of a day number: eras of 400 years, centuries, spans of four years, years, months
counted from March. The last century of an era and the last year of a span are a day longer. -/
def civilOfDay (day : Int) : Civil :=
  let z := day + epochShift
  let ofEra := z % 146097
  -- The last century of an era has one day more, as has the last year of a span.
  let century := min 3 (ofEra / 36524)
  let ofCentury := ofEra - century * 36524
  let span := ofCentury / 1461
  let ofSpan := ofCentury % 1461
  let single := min 3 (ofSpan / 365)
  let ofYear := ofSpan - single * 365
  let y := z / 146097 * 400 + century * 100 + span * 4 + single
  let fromMarch := (5 * ofYear + 2) / 153
  let month := if fromMarch < 10 then fromMarch + 3 else fromMarch - 9
  ⟨if month ≤ 2 then y + 1 else y, month, ofYear - daysBefore fromMarch + 1⟩

def civil (date : Date) : Civil := civilOfDay date.day

def isLeapYear (year : Int) : Bool := year % 4 == 0 && (year % 100 != 0 || year % 400 == 0)

def daysInMonth (year month : Int) : Int :=
  if month = 2 then (if isLeapYear year then 29 else 28)
  else if month = 4 ∨ month = 6 ∨ month = 9 ∨ month = 11 then 30
  else 31

def ofCivil? (year month day : Int) : Option Date :=
  if 1 ≤ month ∧ month ≤ 12 ∧ 1 ≤ day ∧ day ≤ daysInMonth year month then
    ofDay? (dayOfCivil year month day)
  else none

/-- The date a number of days later, or earlier for a number below zero. -/
def shift? (date : Date) (days : Int) : Option Date := ofDay? (date.day + days)

/-- The digits of a number, filled up with zeros to a width. -/
def padded (width n : Nat) : List Char :=
  let ds := Decimal.digitChars n
  List.replicate (width - ds.length) '0' ++ ds

/-- A year has at least four digits, and a sign unless it is one of 0 to 9999. -/
def yearText (year : Int) : List Char :=
  if 0 ≤ year ∧ year ≤ 9999 then padded 4 year.toNat
  else (if year < 0 then '-' else '+') :: padded 4 year.natAbs

/-- Year, month and day. -/
def text (date : Date) : List Char :=
  let c := date.civil
  yearText c.year ++ '-' :: (padded 2 c.month.toNat ++ '-' :: padded 2 c.day.toNat)

/-- One to `width` digits at the front of a text, and the rest. -/
def digitsUpTo (width : Nat) (cs : List Char) : Option (Nat × List Char) :=
  let ds := (cs.take width).takeWhile Char.isDigit
  if ds.isEmpty then none else some (Decimal.ofDigitChars ds, cs.drop ds.length)

/-- A year at the front of a text: up to four digits, or a sign and any number of them. -/
def yearAt (cs : List Char) : Option (Int × List Char) :=
  match Text.trimStart cs with
  | '-' :: rest => (digitsUpTo rest.length rest).map fun (n, rest) => (-(n : Int), rest)
  | '+' :: rest => (digitsUpTo rest.length rest).map fun (n, rest) => ((n : Int), rest)
  | rest => (digitsUpTo 4 rest).map fun (n, rest) => ((n : Int), rest)

/-- A hyphen and a number of one or two digits; blanks may stand before the number. -/
def partAt (cs : List Char) : Option (Int × List Char) :=
  match cs with
  | '-' :: rest => (digitsUpTo 2 (Text.trimStart rest)).map fun (n, rest) => ((n : Int), rest)
  | _ => none

/-- Reads a date that takes up the whole text. -/
def read? (cs : List Char) : Option Date := do
  let (year, rest) ← yearAt cs
  let (month, rest) ← partAt rest
  let (day, rest) ← partAt rest
  if rest.isEmpty then ofCivil? year month day else none

/-- The characters that make up the first `count` bytes of a text, and the rest, if a character
ends there. -/
def splitBytes : Nat → List Char → Option (List Char × List Char)
  | 0, cs => some ([], cs)
  | _ + 1, [] => none
  | count + 1, c :: cs =>
    if c.utf8Size ≤ count + 1 then
      (splitBytes (count + 1 - c.utf8Size) cs).map fun (head, rest) => (c :: head, rest)
    else none
  termination_by _ cs => cs.length

/-- Reads a date of ten bytes that is followed by nothing or by a time of day. -/
def readLeading? (cs : List Char) : Option Date :=
  match splitBytes 10 cs with
  | some (head, []) => read? head
  | some (head, c :: _) => if c = 'T' ∨ c = ' ' then read? head else none
  | none => none

end Date

/-- A moment of universal time. -/
structure Instant where
  date : Date
  second : Nat
  nano : Nat
  deriving DecidableEq

namespace Instant

/-- The moment a number of seconds after the start of 1970. -/
def ofSeconds? (seconds : Int) (nano : Nat) : Option Instant :=
  (Date.ofDay? (seconds / 86400)).map fun date => ⟨date, (seconds % 86400).toNat, nano⟩

/-- The fraction of a second in three, six or nine digits, the fewest that are exact; a whole second
has none. -/
def fractionText (nano : Nat) : List Char :=
  if nano = 0 then []
  else if nano % 1000000 = 0 then '.' :: Date.padded 3 (nano / 1000000)
  else if nano % 1000 = 0 then '.' :: Date.padded 6 (nano / 1000)
  else '.' :: Date.padded 9 nano

/-- Date and time with the offset zero. -/
def text (t : Instant) : String :=
  .ofList (t.date.text ++ 'T' :: (Date.padded 2 (t.second / 3600) ++
    ':' :: (Date.padded 2 (t.second / 60 % 60) ++ ':' :: (Date.padded 2 (t.second % 60) ++
      (fractionText t.nano ++ ['+', '0', '0', ':', '0', '0'])))))

end Instant

end Bylaw
