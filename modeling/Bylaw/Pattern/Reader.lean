import Bylaw.Pattern.Matching

/-! Reading patterns: literals, classes, repetitions, groups, flags and assertions. Look-around and
references back to groups are not part of the language. -/

namespace Bylaw.Pattern

/-- Why a text is no pattern. -/
inductive Fault where
  | endOfPattern
  | unopenedGroup
  | unclosedGroup
  | unclosedClass
  | nothingToRepeat
  | badRepetition
  | badEscape
  | badClass
  | badFlags
  | badGroupName
  | unknownProperty
  | lookAround
  | notText
  | tooDeep
  | tooLarge
  deriving DecidableEq

def Fault.message : Fault → String
  | .endOfPattern => "the pattern ends too early"
  | .unopenedGroup => "a group is closed that is not open"
  | .unclosedGroup => "a group is not closed"
  | .unclosedClass => "a class is not closed"
  | .nothingToRepeat => "there is nothing to repeat"
  | .badRepetition => "a repetition has no valid bounds"
  | .badEscape => "an escape stands for nothing"
  | .badClass => "a class has no valid range"
  | .badFlags => "flags are not valid"
  | .badGroupName => "a group name is not valid"
  | .unknownProperty => "a property is not known"
  | .lookAround => "look-around is not supported"
  | .notText => "the pattern can match bytes that are no text"
  | .tooDeep => "groups are nested too deeply"
  | .tooLarge => "the pattern is too large"

/-- How the parts of a pattern are read. -/
structure Flags where
  ignoreCase : Bool := false
  multiLine : Bool := false
  dotAll : Bool := false
  crlf : Bool := false
  unicode : Bool := true
  verbose : Bool := false

/-- What an escape stands for. -/
inductive Atom where
  | char (c : Char)
  | set (s : CharSet)
  | look (l : Look)

namespace Flags

def close (f : Flags) (s : CharSet) : CharSet :=
  if !f.ignoreCase then s else if f.unicode then s.caseClosure else s.asciiCaseClosure

def word (f : Flags) : CharSet := if f.unicode then CharSet.word else CharSet.asciiWord

end Flags

/-- Blanks and comments, which say nothing in verbose patterns. -/
def dropVerbose : Bool → List Char → List Char
  | _, [] => []
  | inComment, c :: rest =>
    if inComment then dropVerbose (c != '\n') rest
    else if Text.isBlank c then dropVerbose false rest
    else if c == '#' then dropVerbose true rest
    else c :: rest

/-- The rest of a pattern from its next character that says something. -/
def skip (f : Flags) (cs : List Char) : List Char := if f.verbose then dropVerbose false cs else cs

theorem dropVerbose_le (inComment : Bool) (cs : List Char) :
    (dropVerbose inComment cs).length ≤ cs.length := by
  fun_induction dropVerbose inComment cs <;> simp <;> omega

theorem skip_le (f : Flags) (cs : List Char) : (skip f cs).length ≤ cs.length := by
  unfold skip
  split
  · exact dropVerbose_le false cs
  · exact Nat.le_refl _

def hexValue? (c : Char) : Option Nat :=
  if c.isDigit then some (c.toNat - '0'.toNat)
  else if 'a' ≤ c ∧ c ≤ 'f' then some (c.toNat - 'a'.toNat + 10)
  else if 'A' ≤ c ∧ c ≤ 'F' then some (c.toNat - 'A'.toNat + 10)
  else none

/-- The character whose number the given hexadecimal digits denote. -/
def hexChar? (ds : List Char) : Option Char := do
  let digits ← ds.mapM hexValue?
  if digits.isEmpty then none
  else
    let n := digits.foldl (fun n d => n * 16 + d) 0
    if h : n.isValidChar then some (Char.ofNatAux n h) else none

/-- A character by its number: `width` digits, or any number of digits in braces. -/
def hexEscape (f : Flags) (width : Nat) (cs : List Char) : Except Fault (Atom × List Char) :=
  match skip f cs with
  | [] => .error .endOfPattern
  | '\x7b' :: rest =>
    let (ds, rest) := rest.span (· != '\x7d')
    match hexChar? ds, rest with
    | some c, _ :: rest => .ok (.char c, rest)
    | _, _ => .error .badEscape
  | rest =>
    match hexChar? (rest.take width) with
    | some c =>
      if rest.length < width then .error .endOfPattern
      else if width = 2 ∧ !f.unicode ∧ 0x7F < c.toNat then .error .notText
      else .ok (.char c, rest.drop width)
    | none => .error .badEscape

/-- A property: one letter, or a name in braces that may ask for a value. -/
def propertyEscape (f : Flags) (negated : Bool) (cs : List Char) :
    Except Fault (Atom × List Char) :=
  if !f.unicode then .error .notText
  else
    let finish (negated : Bool) (s : Option CharSet) (rest : List Char) :=
      match s with
      | some s =>
        let s := f.close s
        .ok (.set (if negated then s.compl else s), rest)
      | none => .error .unknownProperty
    match skip f cs with
    | [] => .error .endOfPattern
    | '\x7b' :: rest =>
      let (name, rest) := rest.span (· != '\x7d')
      match rest with
      | [] => .error .endOfPattern
      | _ :: rest =>
        let (property, value) := name.span fun c => !(c == '=' || c == ':' || c == '!')
        match value with
        | [] => finish negated (CharSet.named? name) rest
        | '!' :: '=' :: value => finish (!negated) (CharSet.valued? property value) rest
        | _ :: value => finish negated (CharSet.valued? property value) rest
    | c :: rest =>
      if c = '\\' then .error .badEscape else finish negated (CharSet.named? [c]) rest

/-- A named class, or its complement. -/
def perlClass (f : Flags) (negated : Bool) (unicode ascii : CharSet) : Except Fault Atom :=
  if f.unicode then .ok (.set (if negated then unicode.compl else unicode))
  else if negated then .error .notText
  else .ok (.set ascii)

/-- An assertion on words whose name may stand in braces after the escape. -/
def edgeEscape (f : Flags) (cs : List Char) : Except Fault (Atom × List Char) :=
  match cs with
  | '\x7b' :: rest =>
    let (name, rest') := rest.span (· != '\x7d')
    let isName := match name with
      | c :: _ => c.isAlpha || c == '-'
      | [] => false
    if !isName then .ok (.look (.edge f.word), cs)
    else
      match rest' with
      | [] => .error .endOfPattern
      | _ :: rest' =>
        match String.ofList name with
        | "start" => .ok (.look (.wordStart f.word), rest')
        | "end" => .ok (.look (.wordStop f.word), rest')
        | "start-half" => .ok (.look (.notAfterWord f.word), rest')
        | "end-half" => .ok (.look (.notBeforeWord f.word), rest')
        | _ => .error .badEscape
  | rest => .ok (.look (.edge f.word), rest)

/-- What stands after a backslash. Every ASCII character that is no letter and no digit may be
escaped, the angle brackets apart, which assert the ends of words. -/
def escape (f : Flags) : List Char → Except Fault (Atom × List Char)
  | [] => .error .endOfPattern
  | c :: rest =>
    let keep (r : Except Fault Atom) : Except Fault (Atom × List Char) := r.map fun a => (a, rest)
    match c with
    | 'x' => hexEscape f 2 rest
    | 'u' => hexEscape f 4 rest
    | 'U' => hexEscape f 8 rest
    | 'p' => propertyEscape f false rest
    | 'P' => propertyEscape f true rest
    | 'd' => keep (perlClass f false CharSet.digit Char.isDigit)
    | 'D' => keep (perlClass f true CharSet.digit Char.isDigit)
    | 's' => keep (perlClass f false CharSet.space (CharSet.ranges [(9, 13), (0x20, 0x20)]))
    | 'S' => keep (perlClass f true CharSet.space CharSet.none)
    | 'w' => keep (perlClass f false CharSet.word CharSet.asciiWord)
    | 'W' => keep (perlClass f true CharSet.word CharSet.asciiWord)
    | 'a' => .ok (.char '\x07', rest)
    | 'f' => .ok (.char '\x0c', rest)
    | 't' => .ok (.char '\t', rest)
    | 'n' => .ok (.char '\n', rest)
    | 'r' => .ok (.char '\r', rest)
    | 'v' => .ok (.char '\x0b', rest)
    | 'A' => .ok (.look .start, rest)
    | 'z' => .ok (.look .stop, rest)
    | 'b' => edgeEscape f rest
    | 'B' => if f.unicode then .ok (.look (.notEdge f.word), rest) else .error .notText
    | '<' => .ok (.look (.wordStart f.word), rest)
    | '>' => .ok (.look (.wordStop f.word), rest)
    | c => if c.toNat < 128 ∧ !c.isAlphanum then .ok (.char c, rest) else .error .badEscape

/-- The class of ASCII characters at the front of a text, if one is named there: a name between
`[:` and `:]`, with a leading caret for the complement. -/
def asciiClassAt (cs : List Char) : Option (CharSet × List Char) :=
  match cs with
  | '[' :: ':' :: rest =>
    let (negated, rest) := match rest with
      | '^' :: rest => (true, rest)
      | rest => (false, rest)
    let (name, rest) := rest.span (· != ':')
    match rest with
    | ':' :: ']' :: rest =>
      (CharSet.asciiClass? (.ofList name)).map fun s => (if negated then s.compl else s, rest)
    | _ => none
  | _ => none

/-- A member of a class. -/
def classItem (f : Flags) (cs : List Char) : Except Fault (Atom × List Char) :=
  match cs with
  | [] => .error .unclosedClass
  | '\\' :: rest => escape f rest
  | c :: rest => if !f.unicode ∧ 127 < c.toNat then .error .notText else .ok (.char c, rest)

def Atom.toSet : Atom → Except Fault CharSet
  | .char c => .ok (.single c)
  | .set s => .ok s
  | .look _ => .error .badClass

/-- A member of a class, or a range of characters. A hyphen before the closing bracket or before
another hyphen makes no range. -/
def classRange (f : Flags) (cs : List Char) : Except Fault (CharSet × List Char) := do
  let (low, rest) ← classItem f cs
  let rest := skip f rest
  match rest with
  | [] => throw .unclosedClass
  | '-' :: after =>
    let next := skip f after
    match next with
    | [] => throw .unclosedClass
    | c :: _ =>
      if c == ']' || c == '-' then pure (← low.toSet, rest)
      else
        let (high, rest) ← classItem f next
        match low, high with
        | .char a, .char b => if a ≤ b then pure (.range a b, rest) else throw .badClass
        | _, _ => throw .badClass
  | _ => pure (← low.toSet, rest)

/-- What two parts of a class are joined with. -/
inductive SetOp where
  | inter
  | diff
  | symmDiff

def SetOp.apply : SetOp → CharSet → CharSet → CharSet
  | .inter => CharSet.inter
  | .diff => CharSet.diff
  | .symmDiff => CharSet.symmDiff

/-- The operands read so far of a class: the last operation with its left side, and the members
that follow it. -/
structure ClassState where
  left : Option (CharSet × SetOp)
  members : CharSet

/-- The set of the operands read so far. -/
def ClassState.close (f : Flags) (s : ClassState) : CharSet :=
  match s.left with
  | some (l, op) => op.apply (f.close l) (f.close s.members)
  | none => s.members

/-- The set of a class: closed under case first, and complemented then. -/
def ClassState.finish (f : Flags) (negated : Bool) (s : ClassState) : CharSet :=
  let set := f.close (s.close f)
  if negated then set.compl else set

/-- The members of a class up to its closing bracket; `nested` reads a class inside it. -/
def classBody (nested : List Char → Except Fault (CharSet × List Char)) (f : Flags) (negated : Bool)
    (s : ClassState) (cs : List Char) : Except Fault (CharSet × List Char) :=
  match cs with
  | [] => .error .unclosedClass
  | ']' :: rest => if negated ∧ !f.unicode then .error .notText else .ok (s.finish f negated, rest)
  | c :: tail =>
    let step : Except Fault (ClassState × List Char) :=
      match c, tail with
      | '[', _ =>
        match asciiClassAt (c :: tail) with
        | some (set, rest) => .ok ({ s with members := s.members.union set }, rest)
        | none => (nested tail).map fun (set, rest) =>
            ({ s with members := s.members.union set }, rest)
      | '&', '&' :: rest => .ok (⟨some (s.close f, .inter), .none⟩, rest)
      | '-', '-' :: rest => .ok (⟨some (s.close f, .diff), .none⟩, rest)
      | '~', '~' :: rest => .ok (⟨some (s.close f, .symmDiff), .none⟩, rest)
      | _, _ => (classRange f (c :: tail)).map fun (set, rest) =>
          ({ s with members := s.members.union set }, rest)
    match step with
    | .error e => .error e
    | .ok (s, rest) =>
      let rest := skip f rest
      if _h : rest.length < (c :: tail).length then classBody nested f negated s rest
      else .error .unclosedClass
  termination_by cs.length
  decreasing_by exact _h

/-- Hyphens at the start of a class stand for themselves. -/
def leadingHyphens (f : Flags) (found : Bool) (cs : List Char) : Bool × List Char :=
  match cs with
  | '-' :: rest => leadingHyphens f true (skip f rest)
  | rest => (found, rest)
  termination_by cs.length
  decreasing_by exact Nat.lt_succ_of_le (skip_le f rest)

/-- A class, its opening bracket having been read. A closing bracket that comes first stands for
itself. -/
def bracket (f : Flags) : Nat → List Char → Except Fault (CharSet × List Char)
  | 0, _ => .error .tooDeep
  | depth + 1, cs =>
    let cs := skip f cs
    let (negated, cs) := match cs with
      | '^' :: rest => (true, skip f rest)
      | rest => (false, rest)
    let (hyphen, cs) := leadingHyphens f false cs
    let (members, cs) :=
      if hyphen then (CharSet.single '-', cs)
      else
        match cs with
        | ']' :: rest => (CharSet.single ']', skip f rest)
        | rest => (CharSet.none, rest)
    classBody (bracket f depth) f negated ⟨none, members⟩ cs

/-- A decimal number between blanks, and the rest. -/
def decimal (cs : List Char) : Except Fault (Nat × List Char) :=
  let (ds, rest) := (Text.trimStart cs).span Char.isDigit
  if ds.isEmpty then .error .badRepetition
  else
    let n := ds.foldl (fun n c => 10 * n + (c.toNat - '0'.toNat)) 0
    if n < 0x100000000 then .ok (n, Text.trimStart rest) else .error .badRepetition

/-- The bounds of a repetition, its opening brace having been read. -/
def bounds (f : Flags) (cs : List Char) : Except Fault ((Nat × Option Nat) × List Char) := do
  let (least, rest) ← decimal (skip f cs)
  let (most, rest) ← match rest with
    | ',' :: rest =>
      match skip f rest with
      | '\x7d' :: rest => pure (none, '\x7d' :: rest)
      | rest => (decimal rest).map fun (n, rest) => (some n, rest)
    | rest => pure (some least, rest)
  match rest with
  | '\x7d' :: rest =>
    if most.all (least ≤ ·) then pure ((least, most), skip f rest) else throw .badRepetition
  | _ => throw .badRepetition

def setFlag (value : Bool) (f : Flags) : Char → Option Flags
  | 'i' => some { f with ignoreCase := value }
  | 'm' => some { f with multiLine := value }
  | 's' => some { f with dotAll := value }
  | 'R' => some { f with crlf := value }
  | 'u' => some { f with unicode := value }
  | 'x' => some { f with verbose := value }
  | 'U' => some f
  | _ => none

/-- Flags up to a colon or a closing parenthesis, none of them twice; those after a hyphen are
cleared. The result tells whether there were any, and the character that ended them. -/
def flagsAt (f : Flags) (seen : List Char) :
    List Char → Except Fault (Flags × Bool × Char × List Char)
  | [] => .error .endOfPattern
  | c :: rest =>
    if c = ':' ∨ c = ')' then
      if seen.head? = some '-' then .error .badFlags else .ok (f, !seen.isEmpty, c, rest)
    else if seen.contains c then .error .badFlags
    else if c = '-' then flagsAt f ('-' :: seen) rest
    else
      match setFlag (!seen.contains '-') f c with
      | some f => flagsAt f (c :: seen) rest
      | none => .error .badFlags

/-- The name of a group: a letter or an underscore, then letters, digits and some marks. -/
def isGroupName (name : List Char) : Bool :=
  let isLetter (c : Char) := CharSet.alphabetic c
  let isNumber (c : Char) := CharSet.ofCategory 'N' none c
  match name with
  | [] => false
  | c :: rest => (c == '_' || isLetter c) && rest.all fun c =>
      c == '_' || c == '.' || c == '[' || c == ']' || isLetter c || isNumber c

/-- A part of a sequence; flags that are set in passing cannot be repeated. -/
inductive Part where
  | node (n : Node)
  | flags

/-- What has been read of a group: finished alternatives, and the parts of the last one in
reverse. -/
structure State where
  flags : Flags
  names : List (List Char)
  finished : Option Node
  parts : List Part

def Part.toNode : Part → Node
  | .node n => n
  | .flags => .empty

/-- The parts of the last alternative as one tree. -/
def State.sequence (s : State) : Node :=
  s.parts.foldl (fun node part => .seq part.toNode node) .empty

/-- The alternatives as one tree. -/
def State.alternatives (s : State) : Node :=
  match s.finished with
  | some node => .alt node s.sequence
  | none => s.sequence

def State.push (s : State) (n : Node) : State := { s with parts := .node n :: s.parts }

/-- Repeats the last part. -/
def State.repeatLast (s : State) (least : Nat) (most : Option Nat) : Except Fault State :=
  match s.parts with
  | .node n :: rest => .ok { s with parts := .node (.loop n least most) :: rest }
  | _ => .error .nothingToRepeat

/-- A question mark after a repetition changes which match is preferred, not whether there is
one. -/
def dropLazy : List Char → List Char
  | '?' :: rest => rest
  | rest => rest

/-- Any character, or all but the ends of lines. -/
def Flags.dot (f : Flags) : CharSet :=
  if f.dotAll then .all
  else if f.crlf then fun c => c != '\n' && c != '\r'
  else fun c => c != '\n'

def Flags.atomNode (f : Flags) : Atom → Node
  | .char c => .one (f.close (.single c))
  | .set s => .one s
  | .look l => .look l

/-- A group, its opening parenthesis having been read: flags in passing, or a part. -/
def groupAt (nested : State → List Char → Except Fault (Node × List (List Char) × List Char))
    (s : State) (cs : List Char) : Except Fault (State × List Char) := do
  let inner (f : Flags) (names : List (List Char)) (cs : List Char) :
      Except Fault (State × List Char) := do
    let (node, names, rest) ← nested ⟨f, names, none, []⟩ cs
    pure ({ s with names := names }.push node, rest)
  let named (cs : List Char) : Except Fault (State × List Char) := do
    let (name, rest) := cs.span (· != '>')
    match rest with
    | [] => throw .endOfPattern
    | _ :: rest =>
      if !isGroupName name || s.names.contains name then throw .badGroupName
      inner s.flags (name :: s.names) rest
  match skip s.flags cs with
  | '?' :: '=' :: _ | '?' :: '!' :: _ | '?' :: '<' :: '=' :: _ | '?' :: '<' :: '!' :: _ =>
    throw .lookAround
  | '?' :: 'P' :: '<' :: rest => named rest
  | '?' :: '<' :: rest => named rest
  | '?' :: rest =>
    let (f, any, stop, rest) ← flagsAt s.flags [] rest
    if stop = ':' then inner f s.names rest
    else if any then pure ({ s with flags := f, parts := .flags :: s.parts }, rest)
    else throw .nothingToRepeat
  | rest => inner s.flags s.names rest

/-- Reads one more part, unless the group ends here. -/
def stepAt (nested : State → List Char → Except Fault (Node × List (List Char) × List Char))
    (s : State) (cs : List Char) : Except Fault (Option (State × List Char)) := do
  let f := s.flags
  match cs with
  | [] => pure none
  | ')' :: _ => pure none
  | '(' :: rest => some <$> groupAt nested s rest
  | '|' :: rest => pure (some ({ s with finished := some s.alternatives, parts := [] }, rest))
  | '[' :: rest =>
    let (set, rest) ← bracket f 250 rest
    pure (some (s.push (.one set), rest))
  | '*' :: rest => pure (some (← s.repeatLast 0 none, dropLazy rest))
  | '+' :: rest => pure (some (← s.repeatLast 1 none, dropLazy rest))
  | '?' :: rest => pure (some (← s.repeatLast 0 (some 1), dropLazy rest))
  | '\x7b' :: rest =>
    let _ ← s.repeatLast 0 none
    let ((least, most), rest) ← bounds f rest
    pure (some (← s.repeatLast least most, dropLazy rest))
  | '\\' :: rest =>
    let (atom, rest) ← escape f rest
    pure (some (s.push (f.atomNode atom), rest))
  | '.' :: rest => if f.unicode then pure (some (s.push (.one f.dot), rest)) else throw .notText
  | '^' :: rest =>
    let look := if !f.multiLine then Look.start else if f.crlf then .crlfLineStart else .lineStart
    pure (some (s.push (.look look), rest))
  | '$' :: rest =>
    let look := if !f.multiLine then Look.stop else if f.crlf then .crlfLineStop else .lineStop
    pure (some (s.push (.look look), rest))
  | c :: rest => pure (some (s.push (f.atomNode (.char c)), rest))

/-- Reads the parts of a group up to its end. -/
def partsAt (nested : State → List Char → Except Fault (Node × List (List Char) × List Char))
    (s : State) (cs : List Char) : Except Fault (Node × List (List Char) × List Char) :=
  let here := skip s.flags cs
  match stepAt nested s here with
  | .error e => .error e
  | .ok none => .ok (s.alternatives, s.names, here)
  | .ok (some (s, rest)) =>
    if _h : rest.length < cs.length then partsAt nested s rest else .error .endOfPattern
  termination_by cs.length

/-- A group up to and including its closing parenthesis, with at most so many groups inside one
another. -/
def nestedGroup : Nat → State → List Char → Except Fault (Node × List (List Char) × List Char)
  | 0, _, _ => .error .tooDeep
  | depth + 1, s, cs => do
    let (node, names, rest) ← partsAt (nestedGroup depth) s cs
    match rest with
    | ')' :: rest => pure (node, names, rest)
    | _ => throw .unclosedGroup

/-- How many parts a pattern has with its repetitions written out. -/
def Node.size : Node → Nat
  | .empty => 0
  | .one _ => 1
  | .look _ => 1
  | .seq a b => a.size + b.size
  | .alt a b => a.size + b.size + 1
  | .loop body least most => body.size * max 1 (max least (most.getD least))

/-- How many parts a pattern may have with its repetitions written out. This stands for a limit on
the size of what a pattern is translated to, where a class of characters may count more. -/
def sizeLimit : Nat := 327680

def read (source : String) : Except Fault Node := do
  let (node, _, rest) ← partsAt (nestedGroup 250) ⟨{}, [], none, []⟩ source.toList
  if !rest.isEmpty then throw .unopenedGroup
  if sizeLimit < node.size then throw .tooLarge
  pure node

end Bylaw.Pattern
