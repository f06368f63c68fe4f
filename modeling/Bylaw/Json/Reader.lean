import Bylaw.Json.Basic
import Bylaw.Text.Reading

/-! Reading JSON texts. Of two fields of one name the last counts. Arrays and objects may be nested
127 deep. -/

namespace Bylaw.Json

/-- Why a text is no JSON text. -/
inductive ReadError where
  | endOfText
  | unexpected (c : Char)
  | badEscape
  | badNumber
  | outOfRange
  | tooDeep
  | badEncoding
  deriving DecidableEq

def ReadError.message : ReadError → String
  | .endOfText => "unexpected end of text"
  | .unexpected c => s!"unexpected character '{c}'"
  | .badEscape => "invalid escape"
  | .badNumber => "invalid number"
  | .outOfRange => "number out of range"
  | .tooDeep => "nested too deeply"
  | .badEncoding => "invalid encoding"

def isBlank (c : Char) : Bool := c == ' ' || c == '\n' || c == '\t' || c == '\r'

def skipBlank (cs : List Char) : List Char := cs.dropWhile isBlank

theorem skipBlank_le (cs : List Char) : (skipBlank cs).length ≤ cs.length :=
  (List.dropWhile_suffix isBlank).length_le

theorem length_lt_of_skipBlank {cs rest : List Char} {c : Char} (h : skipBlank cs = c :: rest) :
    rest.length < cs.length := by
  have := skipBlank_le cs
  rw [h, List.length_cons] at this
  omega

def errorAt : List Char → ReadError
  | [] => .endOfText
  | c :: _ => .unexpected c

/-- The value of a hexadecimal digit. -/
def hexValue? (c : Char) : Option Nat :=
  if '0' ≤ c ∧ c ≤ '9' then some (c.toNat - '0'.toNat)
  else if 'a' ≤ c ∧ c ≤ 'f' then some (c.toNat - 'a'.toNat + 10)
  else if 'A' ≤ c ∧ c ≤ 'F' then some (c.toNat - 'A'.toNat + 10)
  else none

/-- The number that four hexadecimal digits denote. -/
def hexUnit? (a b c d : Char) : Option Nat := do
  let a ← hexValue? a
  let b ← hexValue? b
  let c ← hexValue? c
  let d ← hexValue? d
  pure (((a * 16 + b) * 16 + c) * 16 + d)

/-- The character that a backslash and `c` denote, the escape by number apart. -/
def simpleEscape? (c : Char) : Option Char :=
  if c = '"' ∨ c = '\\' ∨ c = '/' then some c
  else if c = 'b' then some '\x08'
  else if c = 'f' then some '\x0c'
  else if c = 'n' then some '\n'
  else if c = 'r' then some '\r'
  else if c = 't' then some '\t'
  else none

/-- The character with the given number, unless it is half of a pair. -/
def charOfUnit? (u : Nat) : Option Char := if 0xD800 ≤ u ∧ u ≤ 0xDFFF then none else some (.ofNat u)

/-- The character that a pair of units denotes. -/
def charOfPair? (high low : Nat) : Option Char :=
  if 0xD800 ≤ high ∧ high ≤ 0xDBFF ∧ 0xDC00 ≤ low ∧ low ≤ 0xDFFF then
    some (.ofNat (0x10000 + (high - 0xD800) * 0x400 + (low - 0xDC00)))
  else none

/-- The characters up to the closing quote, the opening one having been read. -/
def stringBody : (cs : List Char) → Except ReadError (Reading (List Char) cs)
  | [] => .error .endOfText
  | '"' :: _ => .ok (.ofHead [])
  | '\\' :: 'u' :: a :: b :: c :: d :: rest =>
    match hexUnit? a b c d with
    -- The first half of a pair: the second half must follow, as an escape too.
    | none => .error .badEscape
    | some unit =>
      match charOfUnit? unit with
      | some ch =>
        match stringBody rest with
        | .ok r => .ok ((r.map (ch :: ·)).after ['\\', 'u', a, b, c, d])
        | .error e => .error e
      | none =>
        match rest with
        | '\\' :: 'u' :: a' :: b' :: c' :: d' :: rest =>
          match (hexUnit? a' b' c' d').bind (charOfPair? unit) with
          | some ch =>
            match stringBody rest with
            | .ok r =>
              let pair := (r.map (ch :: ·)).after ['\\', 'u', a', b', c', d']
              .ok (pair.after ['\\', 'u', a, b, c, d])
            | .error e => .error e
          | none => .error .badEscape
        | _ => .error .badEscape
  | '\\' :: c :: rest =>
    match simpleEscape? c with
    | some ch =>
      match stringBody rest with
      | .ok r => .ok (r.map (ch :: ·)).behind.behind
      | .error e => .error e
    | none => .error .badEscape
  | c :: rest =>
    if c = '\\' ∨ c.toNat < 0x20 then .error (.unexpected c)
    else
      match stringBody rest with
      | .ok r => .ok (r.map (c :: ·)).behind
      | .error e => .error e
  termination_by cs => cs.length

/-- The digits at the front of a text, and the rest. -/
def splitDigits (cs : List Char) : List Char × List Char :=
  (cs.takeWhile Char.isDigit, cs.dropWhile Char.isDigit)

/-- The digits after a point at the front of a text, if there is one, and the rest. -/
def fractionPart : List Char → Except ReadError (Option (List Char) × List Char)
  | '.' :: cs =>
    let (digits, rest) := splitDigits cs
    if digits.isEmpty then .error .badNumber else .ok (some digits, rest)
  | cs => .ok (none, cs)

/-- An exponent at the front of a text, if there is one: its sign and digits, and the rest. -/
def exponentPart (cs : List Char) : Except ReadError (Option Int × List Char) :=
  match cs with
  | c :: rest =>
    if c = 'e' ∨ c = 'E' then
      let (negative, rest) := match rest with
        | '+' :: r => (false, r)
        | '-' :: r => (true, r)
        | r => (false, r)
      let (digits, rest) := splitDigits rest
      if digits.isEmpty then .error .badNumber
      else
        let n : Int := Decimal.ofDigitChars digits
        .ok (some (if negative then -n else n), rest)
    else .ok (none, c :: rest)
  | [] => .ok (none, [])

/-- A number after its sign, and the rest. -/
def numberAfterSign (negative : Bool) (cs : List Char) : Except ReadError (Number × List Char) := do
  let (whole, rest) := splitDigits cs
  if whole.isEmpty || (whole.head? == some '0' && 1 < whole.length) then throw .badNumber
  let (fraction, rest) ← fractionPart rest
  let (exponent, rest) ← exponentPart rest
  let number := match fraction, exponent with
    | none, none => Number.ofDigits negative whole
    | _, _ => Number.ofParts negative whole (fraction.getD []) (exponent.getD 0)
  match number with
  | some n => pure (n, rest)
  | none => throw .outOfRange

/-- A number at the front of a text, and the rest. -/
def numberAt : List Char → Except ReadError (Number × List Char)
  | '-' :: cs => numberAfterSign true cs
  | cs => numberAfterSign false cs

/-- A number as a reading; every number has a digit. -/
def number (cs : List Char) : Except ReadError (Reading Number cs) :=
  match numberAt cs with
  | .ok (n, rest) => if h : rest.length < cs.length then .ok ⟨n, rest, h⟩ else .error .badNumber
  | .error e => .error e

/-- Parts with commas between them up to a closing character, at least one. -/
def parts {α : Type} (closing : Char)
    (part : (cs : List Char) → Except ReadError (Reading α cs)) (cs : List Char) :
    Except ReadError (Reading (List α) cs) :=
  match part cs with
  | .error e => .error e
  | .ok p =>
    match h : skipBlank p.rest with
    | [] => .error .endOfText
    | c :: rest =>
      have hlt : rest.length < cs.length := Nat.lt_trans (length_lt_of_skipBlank h) p.shorter
      if c = closing then .ok ⟨[p.value], rest, hlt⟩
      else if c = ',' then
        match parts closing part rest with
        | .ok r => .ok ⟨p.value :: r.value, r.rest, Nat.lt_trans r.shorter hlt⟩
        | .error e => .error e
      else .error (.unexpected c)
  termination_by cs.length

/-- Parts up to a closing character, which may come at once. -/
def enclosed {α : Type} (closing : Char)
    (part : (cs : List Char) → Except ReadError (Reading α cs)) (cs : List Char) :
    Except ReadError (Reading (List α) cs) :=
  match h : skipBlank cs with
  | [] => .error .endOfText
  | c :: rest =>
    if c = closing then
      .ok ⟨[], rest, length_lt_of_skipBlank h⟩
    else parts closing part cs

/-- A name and the value after its colon. -/
def entry (value : (cs : List Char) → Except ReadError (Reading Json cs)) (cs : List Char) :
    Except ReadError (Reading (String × Json) cs) :=
  match h : skipBlank cs with
  | '"' :: body =>
    match stringBody body with
    | .error e => .error e
    | .ok key =>
      match hc : skipBlank key.rest with
      | ':' :: rest =>
        match value rest with
        | .ok v => .ok ⟨(.ofList key.value, v.value), v.rest, by
            have := v.shorter; have := key.shorter
            have h1 := skipBlank_le key.rest; have h2 := skipBlank_le cs
            simp [h] at h2; simp [hc] at h1; omega⟩
        | .error e => .error e
      | other => .error (errorAt other)
  | other => .error (errorAt other)

def array (value : (cs : List Char) → Except ReadError (Reading Json cs)) (cs : List Char) :
    Except ReadError (Reading Json cs) :=
  (enclosed ']' value cs).map (·.map .arr)

def object (value : (cs : List Char) → Except ReadError (Reading Json cs)) (cs : List Char) :
    Except ReadError (Reading Json cs) :=
  (enclosed '\x7d' (entry value) cs).map (·.map .ofFields)

/-- A value whose first character is the first of the text; `nested` reads an array or an object,
its first character having been read. -/
def valueHere (nested : Bool → (cs : List Char) → Except ReadError (Reading Json cs)) :
    (cs : List Char) → Except ReadError (Reading Json cs)
  | 'n' :: 'u' :: 'l' :: 'l' :: _ =>
    .ok (Reading.ofHead .null).behind.behind.behind
  | 't' :: 'r' :: 'u' :: 'e' :: _ =>
    .ok (Reading.ofHead (.bool true)).behind.behind.behind
  | 'f' :: 'a' :: 'l' :: 's' :: 'e' :: _ =>
    .ok (Reading.ofHead (.bool false)).behind.behind.behind.behind
  | '"' :: rest =>
    (stringBody rest).map fun r => (r.map fun cs => .str (.ofList cs)).within (by simp)
  | '[' :: rest => (nested true rest).map (·.within (by simp))
  | '\x7b' :: rest => (nested false rest).map (·.within (by simp))
  | c :: rest =>
    if c == '-' || c.isDigit then (number (c :: rest)).map (·.map .num)
    else .error (.unexpected c)
  | [] => .error .endOfText

/-- A value at the front of a text, with at most `depth` levels of arrays and objects. -/
def value : Nat → (cs : List Char) → Except ReadError (Reading Json cs)
  | 0, cs =>
    (valueHere (fun _ _ => .error .tooDeep) (skipBlank cs)).map (·.within (skipBlank_le cs))
  | depth + 1, cs =>
    (valueHere (fun isArray cs =>
        if isArray then array (value depth) cs else object (value depth) cs)
      (skipBlank cs)).map (·.within (skipBlank_le cs))

/-- How deep arrays and objects may be nested. -/
def depthLimit : Nat := 127

/-- Reads a JSON text: one value, and nothing but blanks around it. -/
def readChars (cs : List Char) : Except ReadError Json :=
  match value depthLimit cs with
  | .error e => .error e
  | .ok r =>
    match skipBlank r.rest with
    | [] => .ok r.value
    | other => .error (errorAt other)

def read (text : String) : Except ReadError Json := readChars text.toList

end Bylaw.Json
