import Bylaw.Token
import Bylaw.Text.Numeral
import Bylaw.Text.Reading
import Bylaw.Json.Reader

/-! From text to tokens. Blanks and comments stand between tokens and say nothing. A pattern between
slashes is read only after the word `MATCHES`; anywhere else a slash divides. -/

namespace Bylaw.Token

/-- Why a text has no tokens. -/
inductive Fault where
  | unexpected (c : Char)
  | unterminatedString
  | badEscape (digits : String)
  | unterminatedPattern
  | unterminatedBlock
  deriving DecidableEq

def Fault.message : Fault → String
  | .unexpected c => s!"unexpected character '{c}'"
  | .unterminatedString => "unterminated string literal"
  | .badEscape digits => s!"invalid unicode escape '\\u{digits}'"
  | .unterminatedPattern => "unterminated regex literal"
  | .unterminatedBlock => "unterminated object literal"

/-- The blanks between tokens: space, tab and the ends of lines. -/
def isBlank (c : Char) : Bool := c == ' ' || c == '\t' || c == '\r' || c == '\n'

/-- The rest of a text from the end of the line on. A carriage return ends a line only before a line
feed; one that stands alone spoils the line. -/
def dropLine : List Char → Option (List Char)
  | [] => some []
  | '\n' :: rest => some ('\n' :: rest)
  | '\r' :: '\n' :: rest => some ('\r' :: '\n' :: rest)
  | '\r' :: _ => none
  | _ :: rest => dropLine rest

theorem dropLine_le {cs rest : List Char} (h : dropLine cs = some rest) :
    rest.length ≤ cs.length := by
  fun_induction dropLine cs with
  | case1 => simp at h; simp [← h]
  | case2 => simp at h; simp [← h]
  | case3 => simp at h; simp [← h]
  | case4 => simp at h
  | case5 c cs _ _ _ ih => have := ih h; simp; omega

/-- The rest of a text after a comment that begins here: a hash or two slashes, and the line. -/
def dropComment : List Char → Option (List Char)
  | '#' :: rest => dropLine rest
  | '/' :: '/' :: rest => dropLine rest
  | _ => none

theorem dropComment_lt {cs rest : List Char} (h : dropComment cs = some rest) :
    rest.length < cs.length := by
  unfold dropComment at h
  split at h
  · have := dropLine_le h; simp; omega
  · have := dropLine_le h; simp; omega
  · simp at h

/-- The rest of a text from its next token on. -/
def skipTrivia (cs : List Char) : List Char :=
  match cs with
  | [] => []
  | c :: rest =>
    if isBlank c then skipTrivia rest
    else
      match h : dropComment (c :: rest) with
      | some after =>
        have _shorter := dropComment_lt h
        skipTrivia after
      | none => c :: rest
  termination_by cs.length
  decreasing_by
  · exact Nat.lt_succ_self rest.length
  · exact _shorter

theorem skipTrivia_le (cs : List Char) : (skipTrivia cs).length ≤ cs.length := by
  fun_induction skipTrivia cs with
  | case1 => simp
  | case2 c rest _ ih => simp; omega
  | case3 c rest _ after h ih => have := dropComment_lt h; simp at *; omega
  | case4 => simp

def isWordStart (c : Char) : Bool := c.isAlpha || c == '_'

def isWordPart (c : Char) : Bool := c.isAlphanum || c == '_' || c == '.'

/-- The number that digits denote: exact if it fits a signed word, otherwise a double, if one is
near enough. -/
def wholeNumber? (digits : List Char) : Option Number :=
  let n := Decimal.ofDigitChars digits
  if n < 0x8000000000000000 then some (.ofNat n) else (Binary64.ofDecimal false n 0).map .real

/-- The number that digits on both sides of a point denote. -/
def fractionalNumber? (whole fraction : List Char) : Option Number :=
  (Binary64.ofDecimal false (Decimal.ofDigitChars (whole ++ fraction)) (-fraction.length)).map .real

/-- The digits at the front of a text, those after a point if there are any, and the rest. -/
def splitNumber (cs : List Char) : List Char × Option (List Char) × List Char :=
  let whole := cs.takeWhile Char.isDigit
  match cs.dropWhile Char.isDigit with
  | '.' :: after =>
    let fraction := after.takeWhile Char.isDigit
    if fraction.isEmpty then (whole, none, '.' :: after)
    else (whole, some fraction, after.dropWhile Char.isDigit)
  | rest => (whole, none, rest)

theorem splitNumber_le (cs : List Char) : (splitNumber cs).2.2.length ≤ cs.length := by
  have drop_le (cs : List Char) : (cs.dropWhile Char.isDigit).length ≤ cs.length :=
    (List.dropWhile_suffix Char.isDigit).length_le
  have h1 := drop_le cs
  unfold splitNumber
  split
  · rename_i after h
    rw [h] at h1
    have h2 := drop_le after
    simp only [List.length_cons] at h1
    dsimp only
    split <;> simp <;> omega
  · exact h1

/-- A number whose first digit is `c`. -/
def scanNumber (c : Char) (rest : List Char) : Except Fault (Reading Token (c :: rest)) :=
  let parts := splitNumber rest
  let whole := c :: parts.1
  let value := match parts.2.1 with
    | some fraction => fractionalNumber? whole fraction
    | none => wholeNumber? whole
  match value with
  | some n => .ok ⟨.number n, parts.2.2, Nat.lt_succ_of_le (splitNumber_le rest)⟩
  | none => .error (.unexpected c)

/-- A word whose first character is `c`. -/
def scanWord (c : Char) (rest : List Char) : Reading Token (c :: rest) :=
  ⟨.word (.ofList (c :: rest.takeWhile isWordPart)), rest.dropWhile isWordPart,
    Nat.lt_succ_of_le (List.dropWhile_suffix isWordPart).length_le⟩

/-- A symbol, the longest that fits. -/
def scanSymbol : (c : Char) → (rest : List Char) → Except Fault (Reading Token (c :: rest))
  | '>', '=' :: _ => .ok (Reading.ofHead (.symbol .greaterOrEqual)).behind
  | '<', '=' :: _ => .ok (Reading.ofHead (.symbol .lessOrEqual)).behind
  | '!', '=' :: _ => .ok (Reading.ofHead (.symbol .notEqual)).behind
  | '<', '>' :: _ => .ok (Reading.ofHead (.symbol .notEqual)).behind
  | '=', '=' :: _ => .ok (Reading.ofHead (.symbol .equal)).behind
  | '=', _ => .ok (.ofHead (.symbol .equal))
  | '>', _ => .ok (.ofHead (.symbol .greater))
  | '<', _ => .ok (.ofHead (.symbol .less))
  | '+', _ => .ok (.ofHead (.symbol .plus))
  | '-', _ => .ok (.ofHead (.symbol .minus))
  | '*', _ => .ok (.ofHead (.symbol .star))
  | '/', _ => .ok (.ofHead (.symbol .slash))
  | '(', _ => .ok (.ofHead (.symbol .openParen))
  | ')', _ => .ok (.ofHead (.symbol .closeParen))
  | ',', _ => .ok (.ofHead (.symbol .comma))
  | ';', _ => .ok (.ofHead (.symbol .semicolon))
  | '|', _ => .ok (.ofHead (.symbol .pipe))
  | c, _ => .error (.unexpected c)

/-- The value of hexadecimal digits, of which the first may be a plus sign. -/
def hexNumber? (cs : List Char) : Option Nat :=
  let digits := match cs with
    | '+' :: rest => rest
    | rest => rest
  if digits.isEmpty then none
  else (digits.mapM Json.hexValue?).map fun ds => ds.foldl (fun n d => n * 16 + d) 0

/-- The character that an escape by number stands for; halves of pairs stand for none. -/
def escapedChar? (cs : List Char) : Option Char := (hexNumber? cs).bind Json.charOfUnit?

/-- The character that a backslash and `c` stand for, the escape by number apart. -/
def plainEscape (c : Char) : Char :=
  if c = 'n' then '\n'
  else if c = 't' then '\t'
  else if c = 'r' then '\r'
  else if c = 'b' then '\x08'
  else if c = 'f' then '\x0c'
  else c

/-- The characters up to the closing quote, the opening one having been read. An escape by number
takes up the next four characters, whatever they are. -/
def quotedBody (quote : Char) : (cs : List Char) → Except Fault (Reading (List Char) cs)
  | [] => .error .unterminatedString
  | c :: rest =>
    if c = quote then .ok (.ofHead [])
    else if c = '\n' then .error .unterminatedString
    else if c = '\\' then
      match rest with
      | [] => .error .unterminatedString
      | 'u' :: rest =>
        match escapedChar? (rest.take 4) with
        | none => .error (.badEscape (.ofList (rest.take 4)))
        | some ch =>
          -- Four characters are skipped, also where the first of them is a plus sign.
          match quotedBody quote (rest.drop 4) with
          | .ok r => .ok ⟨ch :: r.value, r.rest, by have := r.shorter; simp at this ⊢; omega⟩
          | .error fault => .error fault
      | e :: rest =>
        match quotedBody quote rest with
        | .ok r => .ok (r.map (plainEscape e :: ·)).behind.behind
        | .error fault => .error fault
    else
      match quotedBody quote rest with
      | .ok r => .ok (r.map (c :: ·)).behind
      | .error fault => .error fault
  termination_by cs => cs.length

/-- The source of a pattern up to the closing slash, the opening one having been read. An escaped
slash loses its backslash; all other escapes are the pattern's own. -/
def patternBody : (cs : List Char) → Except Fault (Reading (List Char) cs)
  | [] => .error .unterminatedPattern
  | c :: rest =>
    if c = '/' then .ok (.ofHead [])
    else if c = '\n' then .error .unterminatedPattern
    else if c = '\\' then
      match rest with
      | [] => .error .unterminatedPattern
      | e :: rest =>
        match patternBody rest with
        | .ok r =>
          -- Only the escape of a slash is undone.
          .ok (r.map fun cs => if e = '/' then '/' :: cs else '\\' :: e :: cs).behind.behind
        | .error fault => .error fault
    else
      match patternBody rest with
      | .ok r => .ok (r.map (c :: ·)).behind
      | .error fault => .error fault
  termination_by cs => cs.length

/-- What a block is read in: outside of strings, in a string, or after a backslash in a string. -/
inductive BlockMode where
  | outside
  | inString
  | escaped
  deriving DecidableEq

/-- The rest of a block, up to the brace that closes it; `opened` braces inside it are open. -/
def blockBody :
    (opened : Nat) → BlockMode → (cs : List Char) → Except Fault (Reading (List Char) cs)
  | _, _, [] => .error .unterminatedBlock
  | opened, mode, c :: rest =>
    let go (opened : Nat) (mode : BlockMode) : Except Fault (Reading (List Char) (c :: rest)) :=
      match blockBody opened mode rest with
      | .ok r => .ok (r.map (c :: ·)).behind
      | .error fault => .error fault
    match mode with
    -- Whatever is escaped, the string goes on.
    | .escaped => go opened .inString
    | .inString =>
      go opened (if c = '\\' then .escaped else if c = '"' then .outside else .inString)
    | .outside =>
      if c = '"' then go opened .inString
      else if c = '\x7b' then go (opened + 1) .outside
      else if c = '\x7d' then
        match opened with
        | 0 => .ok (.ofHead [c])
        | opened + 1 => go opened .outside
      else go opened .outside

def scan (afterMatches : Bool) (c : Char) (rest : List Char) :
    Except Fault (Reading Token (c :: rest)) :=
  if afterMatches && c == '/' then
    match patternBody rest with
    | .ok r => .ok (r.map fun cs => .pattern (.ofList cs)).behind
    | .error fault => .error fault
  else if c == '"' || c == '\'' then
    match quotedBody c rest with
    | .ok r => .ok (r.map fun cs => .str (.ofList cs)).behind
    | .error fault => .error fault
  else if c == '\x7b' then
    match blockBody 0 .outside rest with
    | .ok r => .ok (r.map fun cs => .block (.ofList (c :: cs))).behind
    | .error fault => .error fault
  else if c.isDigit then scanNumber c rest
  else if isWordStart c then .ok (scanWord c rest)
  else scanSymbol c rest

/-- A position in a text: the characters before it, and its line, counted from one. -/
structure Cursor where
  offset : Nat
  line : Nat
  deriving DecidableEq

/-- The position after some more characters. -/
def Cursor.past (here : Cursor) (consumed : List Char) : Cursor :=
  ⟨here.offset + consumed.length, here.line + consumed.count '\n'⟩

/-- The position at which `rest` is left of `cs`, which begins at `here`. -/
def Cursor.to (here : Cursor) (cs rest : List Char) : Cursor :=
  here.past (cs.take (cs.length - rest.length))

/-- Whether a pattern may follow. -/
def allowsPattern : Token → Bool
  | .word w => w == "MATCHES"
  | _ => false

/-- A fault and the line it is on. -/
structure FaultAt where
  line : Nat
  fault : Fault
  deriving DecidableEq

/-- The tokens of what is left of a text. -/
def scanFrom (afterMatches : Bool) (here : Cursor) (cs : List Char) :
    Except FaultAt (List Placed) :=
  match h : skipTrivia cs with
  | [] => .ok []
  | c :: rest =>
    let start := here.to cs (c :: rest)
    match scan afterMatches c rest with
    | .error fault => .error ⟨start.line, fault⟩
    | .ok r =>
      let stop := start.to (c :: rest) r.rest
      have : r.rest.length < cs.length := by
        have := r.shorter; have hle := skipTrivia_le cs; rw [h] at hle; omega
      -- Whether a slash begins a pattern is told by the token before it.
      match scanFrom (allowsPattern r.value) stop r.rest with
      | .ok placed => .ok (⟨r.value, start.line, start.offset, stop.offset⟩ :: placed)
      | .error fault => .error fault
  termination_by cs.length

def tokenize (source : List Char) : Except FaultAt (List Placed) := scanFrom false ⟨0, 1⟩ source

end Bylaw.Token
