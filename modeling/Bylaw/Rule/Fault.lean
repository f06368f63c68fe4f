import Bylaw.Rule.Printer
import Bylaw.Token.Scanner

/-! What can be wrong with a text of rules. -/

namespace Bylaw.Rule

/-- Why a statement is no rule. -/
inductive Fault where
  | token (fault : Token.Fault)
  | expected (what : String) (found : Option Token)
  | unknownEvent (text : String)
  | disjunction
  | needsField (test : String) (left : Operand)
  | notComparison (left : Operand) (found : Option Token)
  | badField (text : String)
  | badHandler (text : String)
  | badOffset (n : Number)
  | badTemplate (fault : Template.Fault)
  | badPattern (source : String) (fault : Pattern.Fault)
  | badJson (fault : Json.ReadError)
  | notObject
  | notLiteral (found : Option Token)
  | unknownAction (found : Option Token)
  | missingAction

/-- How messages name what was found. -/
def foundText : Option Token → String
  | some t => t.describe
  | none => "end of statement"

def Fault.message : Fault → String
  | .token fault => fault.message
  | .expected what found => s!"expected {what}, found {foundText found}"
  | .unknownEvent text => Event.unknownMessage text
  | .disjunction => "OR is not supported; write one rule per alternative"
  | .needsField test left => s!"{test} needs a field on its left, found {left.text}"
  | .notComparison left found =>
    s!"expected comparison, EXISTS, MATCHES or CONTAINS after {left.text}, found {foundText found}"
  | .badField text => s!"invalid field reference '{text}'"
  | .badHandler text => s!"invalid handler reference '{text}'"
  | .badOffset n => "date offset must be whole days, found " ++ .ofList n.text
  | .badTemplate fault => fault.message
  | .badPattern source fault => s!"invalid regex /{source}/: {fault.message}"
  | .badJson fault => s!"invalid JSON after WITH: {fault.message}"
  | .notObject => "CREATE payload must be a JSON object"
  | .notLiteral found => s!"INVOKE arguments must be literals, found {foundText found}"
  | .unknownAction found => s!"unknown action {foundText found}"
  | .missingAction => "expected action after ','"

/-- A fault, and how many tokens of the statement were left where it was found. -/
structure Rejection where
  fault : Fault
  remaining : Nat

/-- Rejects a statement at the tokens that are left. -/
def reject {α : Type} (fault : Fault) (ts : List Token) : Except Rejection α :=
  .error ⟨fault, ts.length⟩

/-- Rejects a statement because something else was expected. -/
def rejectExpected {α : Type} (what : String) (ts : List Token) : Except Rejection α :=
  reject (.expected what ts.head?) ts

/-- Rejects a statement because something else was expected; at the end of the statement its last
token, `last`, is what was found. -/
def rejectAfter {α : Type} (what : String) (last : Token) (ts : List Token) : Except Rejection α :=
  reject (.expected what (some (ts.headD last))) ts

end Bylaw.Rule
