import Bylaw.Event
import Bylaw.Template
import Bylaw.Pattern

/-! Rules: on which events of which entity they are asked, the condition on a record, and the
actions to carry out. -/

namespace Bylaw

/-- One side of a comparison. The offset of today's date is in days. -/
inductive Operand where
  | literal (value : Json)
  | field (path : FieldPath)
  | today (offset : Int)

inductive Comparator where
  | eq
  | ne
  | gt
  | ge
  | lt
  | le
  deriving DecidableEq

/-- One term of a condition. -/
inductive Clause where
  | compare (left : Operand) (op : Comparator) (right : Operand)
  | present (field : FieldPath) (negated : Bool)
  | fits (field : FieldPath) (pattern : Pattern) (negated : Bool)
  | contains (field : FieldPath) (needle : Operand) (negated : Bool)

inductive ArithOp where
  | add
  | sub
  | mul
  | div
  deriving DecidableEq

/-- What a field is set to. A call of a handler stands for the value it answers. -/
inductive Expr where
  | literal (value : Json)
  | template (t : Template)
  | field (path : FieldPath)
  | today (offset : Int)
  | binary (op : ArithOp) (left right : Expr)
  | call (handler : String) (args : List Expr)

inductive Action where
  | update (field : FieldPath) (value : Expr)
  | notify (message : Template)
  | delete
  | create (kind : String) (payload : Payload)
  | send (subject : String) (handler : String)
  | invoke (handler : String) (args : List Json)
  | stop

/-- A rule, and the line its statement begins on. A condition is a list of clauses that must all
hold; a rule without one holds of every record. -/
structure Rule where
  entity : String
  events : List Event
  condition : Option (List Clause)
  actions : List Action
  line : Nat

namespace Comparator

def text : Comparator → String
  | .eq => "="
  | .ne => "!="
  | .gt => ">"
  | .ge => ">="
  | .lt => "<"
  | .le => "<="

end Comparator

namespace ArithOp

def text : ArithOp → String
  | .add => "+"
  | .sub => "-"
  | .mul => "*"
  | .div => "/"

end ArithOp

def Operand.equal : Operand → Operand → Bool
  | .literal v, .literal w => v == w
  | .field p, .field q => p == q
  | .today m, .today n => m == n
  | _, _ => false

def Clause.equal : Clause → Clause → Bool
  | .compare l op r, .compare l' op' r' => l.equal l' && op == op' && r.equal r'
  | .present f n, .present f' n' => f == f' && n == n'
  | .fits f p n, .fits f' p' n' => f == f' && p == p' && n == n'
  | .contains f d n, .contains f' d' n' => f == f' && d.equal d' && n == n'
  | _, _ => false

namespace Expr

mutual

/-- Expressions are equal up to the equality of values. -/
def equal : Expr → Expr → Bool
  | .literal v, .literal w => v == w
  | .template s, .template t => s == t
  | .field p, .field q => p == q
  | .today m, .today n => m == n
  | .binary op l r, .binary op' l' r' => op == op' && equal l l' && equal r r'
  | .call h args, .call h' args' => h == h' && equalArgs args args'
  | _, _ => false

def equalArgs : List Expr → List Expr → Bool
  | [], [] => true
  | e :: es, f :: fs => equal e f && equalArgs es fs
  | _, _ => false

end

mutual

/-- The handlers that an expression calls, each before those of its arguments. -/
def handlers : Expr → List String
  | .binary _ l r => handlers l ++ handlers r
  | .call h args => h :: handlersOfArgs args
  | _ => []

def handlersOfArgs : List Expr → List String
  | [] => []
  | e :: es => handlers e ++ handlersOfArgs es

end

end Expr

namespace Action

def notifyHandler : String := "notify"

def createHandler : String := "create"

def verb : Action → String
  | .update .. => "UPDATE"
  | .notify .. => "NOTIFY"
  | .delete => "DELETE"
  | .create .. => "CREATE"
  | .send .. => "SEND"
  | .invoke .. => "INVOKE"
  | .stop => "END"

/-- Actions are equal up to the equality of values. -/
def equal : Action → Action → Bool
  | .update f e, .update f' e' => f == f' && e.equal e'
  | .notify m, .notify m' => m == m'
  | .delete, .delete => true
  | .create k p, .create k' p' => k == k' && p == p'
  | .send s h, .send s' h' => s == s' && h == h'
  | .invoke h args, .invoke h' args' => h == h' && Json.arr args == Json.arr args'
  | .stop, .stop => true
  | _, _ => false

/-- The handlers that an action calls. -/
def handlers : Action → List String
  | .update _ value => value.handlers
  | .notify _ => [notifyHandler]
  | .create _ _ => [createHandler]
  | .send _ handler => [handler]
  | .invoke handler _ => [handler]
  | .delete => []
  | .stop => []

end Action

def listEqual {α : Type} (same : α → α → Bool) : List α → List α → Bool
  | [], [] => true
  | x :: xs, y :: ys => same x y && listEqual same xs ys
  | _, _ => false

namespace Rule

/-- A letter or an underscore, and then letters, digits and underscores. -/
def isIdentifier (name : String) : Bool :=
  match name.toList with
  | [] => false
  | c :: rest => (c.isAlpha || c == '_') && rest.all fun c => c.isAlphanum || c == '_'

def firesOn (rule : Rule) (event : Event) : Bool := rule.events.contains event

/-- Whether one of the actions ends the record's run. -/
def hasStop (rule : Rule) : Bool :=
  rule.actions.any fun
    | .stop => true
    | _ => false

/-- The handlers that a rule calls, in order. -/
def handlers (rule : Rule) : List String := rule.actions.flatMap Action.handlers

/-- Rules are equal up to their lines and the equality of values. -/
def equal (r s : Rule) : Bool :=
  r.entity == s.entity && r.events == s.events &&
    (match r.condition, s.condition with
      | none, none => true
      | some c, some d => listEqual Clause.equal c d
      | _, _ => false) &&
    listEqual Action.equal r.actions s.actions

end Rule

end Bylaw
