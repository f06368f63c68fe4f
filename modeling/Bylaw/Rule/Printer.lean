import Bylaw.Rule
import Bylaw.Json.Printer

/-! The canonical text of rules. Arithmetic inside arithmetic stands in parentheses, so the text
shows the tree. -/

namespace Bylaw

def joinWith (separator : String) (texts : List String) : String := separator.intercalate texts

/-- Today's date, moved by a number of days. -/
def todayText (offset : Int) : String :=
  if offset = 0 then "current_date"
  else if offset < 0 then "current_date - " ++ .ofList (Decimal.digitChars offset.natAbs)
  else "current_date + " ++ .ofList (Decimal.digitChars offset.natAbs)

def Operand.text : Operand → String
  | .literal v => v.compact
  | .field path => path.text
  | .today offset => todayText offset

/-- The source of a pattern between slashes; slashes inside are escaped. -/
def Pattern.text (p : Pattern) : String :=
  "/" ++ .ofList (p.source.toList.flatMap fun c => if c = '/' then ['\\', '/'] else [c]) ++ "/"

namespace Clause

def notText (negated : Bool) : String := if negated then "NOT " else ""

def text : Clause → String
  | .compare left op right => left.text ++ " " ++ op.text ++ " " ++ right.text
  | .present field negated => field.text ++ " " ++ notText negated ++ "EXISTS"
  | .fits field pattern negated =>
    field.text ++ " " ++ notText negated ++ "MATCHES " ++ pattern.text
  | .contains field needle negated =>
    field.text ++ " " ++ notText negated ++ "CONTAINS " ++ needle.text

def allText (clauses : List Clause) : String := joinWith " AND " (clauses.map text)

end Clause

namespace Expr

/-- Whether an expression stands in parentheses inside arithmetic. -/
def isCompound : Expr → Bool
  | .binary .. => true
  | .today offset => offset ≠ 0
  | _ => false

def parenthesized (inside : Bool) (text : String) : String :=
  if inside then "(" ++ text ++ ")" else text

mutual

def text : Expr → String
  | .literal v => v.compact
  | .template t => t.quoted
  | .field path => path.text
  | .today offset => todayText offset
  | .binary op left right =>
    parenthesized left.isCompound (text left) ++ " " ++ op.text ++ " " ++
      parenthesized right.isCompound (text right)
  | .call handler args => "action." ++ handler ++ "(" ++ joinWith ", " (textOfArgs args) ++ ")"

def textOfArgs : List Expr → List String
  | [] => []
  | e :: es => text e :: textOfArgs es

end

end Expr

def Action.text : Action → String
  | .update field value => "UPDATE " ++ field.text ++ " = " ++ value.text
  | .notify message => "NOTIFY " ++ message.quoted
  | .delete => "DELETE"
  | .create kind payload => "CREATE " ++ kind ++ " WITH " ++ payload.compact
  | .send subject handler => "SEND " ++ subject ++ " TO " ++ handler
  | .invoke handler args =>
    "INVOKE " ++ handler ++ "(" ++ joinWith ", " (args.map Json.compact) ++ ")"
  | .stop => "END"

namespace Rule

/-- An entity is quoted unless it is an identifier. -/
def entityText (entity : String) : String :=
  if isIdentifier entity then entity else .ofList (Json.quote entity)

def conditionText (condition : Option (List Clause)) : String :=
  match condition with
  | some clauses => " WHEN " ++ Clause.allText clauses
  | none => ""

def actionsText (actions : List Action) : String :=
  if actions.isEmpty then "" else " " ++ joinWith ", " (actions.map Action.text)

def text (rule : Rule) : String :=
  "IF " ++ joinWith "|" (rule.events.map Event.tag) ++ " " ++ entityText rule.entity ++
    conditionText rule.condition ++ " THEN" ++ actionsText rule.actions

end Rule

end Bylaw
