/-! Media types, as they stand in the header that tells the type of a body. -/

namespace Bylaw

/-- A type, its subtype, and what follows the last plus sign of the subtype. -/
structure MediaType where
  type : String
  subtype : String
  suffix? : Option String
  deriving DecidableEq

namespace MediaType

/-- The characters of names and of values that are not quoted. -/
def isTokenChar (c : Char) : Bool :=
  c.isAlphanum || "!#$%&'*+-.^_|~".toList.contains c || c.toNat == 0x60

/-- The characters between quotes. -/
def isQuotedChar (c : Char) : Bool := 31 < c.toNat && c.toNat != 127

/-- Where in a list of parameters a reader stands. -/
inductive ParameterState where
  | start
  | name
  | value
  | token
  | opened
  | quoted
  | closed
  deriving DecidableEq

namespace ParameterState

/-- Takes one character. The first character between quotes may be a quote. -/
def step : ParameterState → Char → Option ParameterState
  | start, c => if c = ' ' then some start else if isTokenChar c then some name else none
  | name, c => if isTokenChar c then some name else if c = '=' then some value else none
  | value, c => if c = '"' then some opened else if isTokenChar c then some token else none
  | token, c => if isTokenChar c then some token else if c = ';' then some start else none
  | opened, c => if isQuotedChar c then some quoted else none
  | quoted, c => if c = '"' then some closed else if isQuotedChar c then some quoted else none
  | closed, c => if c = ';' then some start else if c = ' ' then some closed else none

/-- Whether a list of parameters may end here. -/
def isFinal : ParameterState → Bool
  | start => true
  | value => true
  | token => true
  | closed => true
  | name => false
  | opened => false
  | quoted => false

end ParameterState

/-- Whether a text is a list of parameters. -/
def areParameters (cs : List Char) : Bool :=
  match cs.foldlM ParameterState.step .start with
  | some state => state.isFinal
  | none => false

/-- The subtype and the suffix of a text that may hold plus signs; one at its front counts as any
other character. -/
def splitSuffix (cs : List Char) : List Char × Option (List Char) :=
  match cs with
  | [] => ([], none)
  | first :: rest =>
    if rest.contains '+' then
      let suffix := (rest.reverse.takeWhile (· ≠ '+')).reverse
      (first :: rest.take (rest.length - suffix.length - 1), some suffix)
    else (cs, none)

/-- Reads a media type and checks its parameters. -/
def read? (text : String) : Option MediaType :=
  let cs := text.toList
  let type := cs.takeWhile isTokenChar
  match cs.dropWhile isTokenChar with
  | '/' :: rest =>
    let sub := rest.takeWhile isTokenChar
    let (subtype, suffix?) := splitSuffix sub
    let result : MediaType := ⟨.ofList type, .ofList subtype, suffix?.map .ofList⟩
    match rest.dropWhile isTokenChar with
    -- Only where parameters follow must the subtype not be empty.
    | [] => if type = [] then none else some result
    | ';' :: parameters =>
      if type = [] || sub = [] || !areParameters parameters then none else some result
    | _ => none
  | _ => none

/-- Whether bodies of a media type are JSON. Letters count in either case. -/
def isJson (m : MediaType) : Bool :=
  m.type.toLower == "application" &&
    (m.subtype.toLower == "json" || m.suffix?.any fun s => s.toLower == "json")

end MediaType

end Bylaw
