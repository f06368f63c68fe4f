import Bylaw.Rule.Statement

/-! From the text of a rule file to its rules. A statement begins with the word `IF` and ends before
the next one, at a semicolon, or at the end of the text. Either all statements are rules, or the
first that is none is the error. -/

namespace Bylaw

/-- Why a text is no list of rules: the line, the statement in one line, and the fault. -/
structure CompileError where
  line : Nat
  statement : String
  fault : Rule.Fault

namespace CompileError

def reason (e : CompileError) : String := e.fault.message

/-- Where, what and in which statement. -/
def message (e : CompileError) : String := s!"line {e.line}: {e.reason} (in `{e.statement}`)"

end CompileError

namespace Rule

open Token (Placed)

/-- The tokens of each statement; `current` holds those of the statement being collected, the last
first. -/
def statementsFrom (current : List Placed) : List Placed → List (List Placed)
  | [] => if current.isEmpty then [] else [current.reverse]
  | p :: rest =>
    if p.token = .symbol .semicolon then
      if current.isEmpty then statementsFrom [] rest else current.reverse :: statementsFrom [] rest
    else if p.token = .word "IF" ∧ !current.isEmpty then
      current.reverse :: statementsFrom [p] rest
    else statementsFrom (p :: current) rest

def statements (placed : List Placed) : List (List Placed) := statementsFrom [] placed

def slice (source : List Char) (start stop : Nat) : List Char :=
  (source.drop start).take (stop - start)

/-- A text of at most 120 characters; the last three of one that was longer are points. -/
def shorten (cs : List Char) : List Char :=
  if 120 < cs.length then cs.take 117 ++ ['.', '.', '.'] else cs

def statementText (source : List Char) (placed : List Placed) : String :=
  match placed.head?, placed.getLast? with
  | some first, some last =>
    .ofList (shorten (Text.collapse (slice source first.start last.stop)))
  | _, _ => ""

def lineText (source : List Char) (line : Nat) : String :=
  .ofList (Text.trim ((Text.splitAt (· == '\n') source)[line - 1]?.getD []))

/-- The line of the token at which a statement was rejected; at its end, that of its last token. -/
def rejectionLine (placed : List Placed) (remaining : Nat) : Nat :=
  match placed[placed.length - remaining]? with
  | some p => p.line
  | none => (placed.getLast?.map (·.line)).getD 1

def ofStatement (source : List Char) (placed : List Placed) : Except CompileError Rule :=
  match statement ((placed.head?.map (·.line)).getD 1) (placed.map (·.token)) with
  | .ok rule => .ok rule
  | .error r => .error ⟨rejectionLine placed r.remaining, statementText source placed, r.fault⟩

/-- The rules of statements, or the error of the first that is none. -/
def ofStatements (source : List Char) : List (List Placed) → Except CompileError (List Rule)
  | [] => .ok []
  | placed :: rest =>
    match ofStatement source placed with
    | .error e => .error e
    | .ok rule =>
      match ofStatements source rest with
      | .ok rules => .ok (rule :: rules)
      | .error e => .error e

def compile (source : String) : Except CompileError (List Rule) :=
  let cs := source.toList
  match Token.tokenize cs with
  | .error e => .error ⟨e.line, lineText cs e.line, .token e.fault⟩
  | .ok placed => ofStatements cs (statements placed)

end Rule

end Bylaw
