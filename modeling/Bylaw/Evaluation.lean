import Bylaw.Calendar
import Bylaw.Criterion
import Bylaw.Rule
import Bylaw.Json.Printer
import Bylaw.Text.Numeral

/-! Conditions on a record, and arithmetic on values. Absent fields satisfy no clause but that they
are absent, and bad data satisfies none. -/

namespace Bylaw

/-- What a request says of itself. -/
structure RequestFacts where
  userAgent : Option String := none
  userIp : Option String := none
  method : Option String := none
  path : Option String := none
  deriving DecidableEq

def RequestFacts.get? (facts : RequestFacts) (name : String) : Option String :=
  match name with
  | "user_agent" => facts.userAgent
  | "user_ip" => facts.userIp
  | "method" => facts.method
  | "path" => facts.path
  | _ => none

/-- What a condition is asked of: a record, the facts of the request, and today's date. -/
structure Scope where
  record : Json
  facts : RequestFacts
  today : Date

/-- The value of a reference: that of the record, or the fact of that name. -/
def Scope.resolve? (scope : Scope) (path : FieldPath) : Option Json :=
  match path.lookup? scope.record with
  | some v => some v
  | none =>
    match path.segments with
    | [name] => (scope.facts.get? name).map .str
    | _ => none

/-- Why a clause or a value cannot be evaluated. -/
inductive EvalError where
  | notComparable (left : String) (op : Comparator) (right : String)
  | notNumeric (text : String)
  | divisionByZero
  | dateOutOfRange (days : Int)
  deriving DecidableEq

def EvalError.message : EvalError → String
  | .notComparable left op right =>
    s!"cannot compare {left} {op.text} {right}: operands are neither numbers nor dates"
  | .notNumeric text => s!"arithmetic on non-numeric value: {text}"
  | .divisionByZero => "division by zero"
  | .dateOutOfRange days => s!"date offset out of range: {days} days"

namespace Json

/-- The double that a number or a numeral denotes. -/
def double? : Json → Option Binary64
  | .num n => some n.toBinary64
  | .str s => Text.double? (Text.trim s.toList)
  | _ => none

/-- The signed word that a number or a numeral denotes. -/
def int64? : Json → Option Int
  | .num n => n.int64?
  | .str s => Text.int64? (Text.trim s.toList)
  | _ => none

/-- The date that a string begins with. -/
def date? : Json → Option Date
  | .str s => Date.readLeading? s.toList
  | _ => none

def ofDate (d : Date) : Json := .str (.ofList d.text)

/-- Numbers and numerals are compared by value, other values by their text; arrays and objects are
equal to nothing but themselves. -/
def looselyEqual (v w : Json) : Bool :=
  if v == w then true
  else
    match v.double?, w.double? with
    | some x, some y => x.equal y
    | _, _ =>
      if v.isArray || v.isObject || w.isArray || w.isObject then false else v.plain == w.plain

/-- The order of two values: that of numbers, or else that of dates. -/
def order? (v w : Json) : Option Ordering :=
  match v.double?, w.double? with
  | some x, some y => some (x.order y)
  | _, _ =>
    match v.date?, w.date? with
    | some d, some e => some (compare d.day e.day)
    | _, _ => none

end Json

def shiftDate (today : Date) (days : Int) : Except EvalError Date :=
  match today.shift? days with
  | some d => .ok d
  | none => .error (.dateOutOfRange days)

namespace Comparator

/-- Whether an order is one that a comparison other than equality asks for. -/
def accepts : Comparator → Ordering → Bool
  | .gt, o => o == .gt
  | .ge, o => o != .lt
  | .lt, o => o == .lt
  | .le, o => o != .gt
  | .eq, o => o == .eq
  | .ne, o => o != .eq

end Comparator

namespace Operand

def isNull : Operand → Bool
  | .literal .null => true
  | _ => false

/-- The value of an operand in a scope, unless it is absent. -/
def resolve (scope : Scope) : Operand → Except EvalError (Option Json)
  | .literal v => .ok (if v.isNull then none else some v)
  | .field path => .ok (scope.resolve? path)
  | .today offset =>
    match shiftDate scope.today offset with
    | .ok d => .ok (some (.ofDate d))
    | .error e => .error e

end Operand

namespace Clause

/-- A comparison with the literal null asks whether the other side is absent. -/
def comparePresence (op : Comparator) (other : Option Json) : Bool :=
  match op with
  | .eq => other.isNone
  | .ne => other.isSome
  | _ => false

def compareValues (op : Comparator) (v w : Json) : Except EvalError Bool :=
  match op with
  | .eq => .ok (v.looselyEqual w)
  | .ne => .ok (!v.looselyEqual w)
  | op =>
    match v.order? w with
    | some o => .ok (op.accepts o)
    | none => .error (.notComparable v.compact op w.compact)

def compareOperands (scope : Scope) (left : Operand) (op : Comparator) (right : Operand) :
    Except EvalError Bool :=
  match left.resolve scope with
  | .error e => .error e
  | .ok v =>
    match right.resolve scope with
    | .error e => .error e
    | .ok w =>
      if !left.isNull && right.isNull then .ok (comparePresence op v)
      else if left.isNull && !right.isNull then .ok (comparePresence op w)
      else
        match v, w with
        | some v, some w => compareValues op v w
        -- Any other comparison with an absent value fails, that of being different too.
        | _, _ => .ok false

/-- Whether a value contains another: an array as an item, anything else as a piece of its text. -/
def containsValue (haystack needle : Json) : Bool :=
  match haystack with
  | .arr items => items.any fun item => item.looselyEqual needle
  | v => Text.hasInfix needle.plain.toList v.plain.toList

/-- Whether a clause holds in a scope. -/
def evaluate (scope : Scope) : Clause → Except EvalError Bool
  | .compare left op right => compareOperands scope left op right
  | .present field negated => .ok ((scope.resolve? field).isSome != negated)
  | .fits field pattern negated =>
    .ok (match scope.resolve? field with
      | some v => pattern.isMatch v.plain != negated
      -- A negated test does not hold either of a field that is not there.
      | none => false)
  | .contains field needle negated =>
    match needle.resolve scope with
    | .error e => .error e
    | .ok w =>
      .ok (match scope.resolve? field, w with
        | some v, some w => containsValue v w != negated
        | _, _ => false)

/-- Whether a clause holds; one that cannot be evaluated does not. -/
def holds (scope : Scope) (c : Clause) : Bool :=
  match c.evaluate scope with
  | .ok b => b
  | .error _ => false

end Clause

namespace Rule

/-- The test of a clause. That a field is absent is the negation of its presence. -/
def clauseCriterion : Clause → Criterion Clause
  | .present field true => .not (.leaf (.present field false))
  | c => .leaf c

def criterion (rule : Rule) : Criterion Clause :=
  match rule.condition with
  | none => .always
  | some clauses => .all (clauses.map clauseCriterion)

/-- Whether a rule's condition holds in a scope. -/
def isMatch (rule : Rule) (scope : Scope) : Bool := rule.criterion.isMet (Clause.holds scope)

end Rule

namespace ArithOp

/-- The exact result on whole numbers, if there is one that fits a signed word. -/
def onInts? (op : ArithOp) (a b : Int) : Option Int :=
  let result := match op with
    | .add => some (a + b)
    | .sub => some (a - b)
    | .mul => some (a * b)
    | .div => if b ≠ 0 ∧ a.tmod b = 0 then some (a.tdiv b) else none
  result.filter fitsInt64

/-- The result on doubles, if it is finite; the divisor is not zero. -/
def double? (op : ArithOp) (x y : Binary64) : Option Binary64 :=
  match op with
  | .add => x.add y
  | .sub => x.sub y
  | .mul => x.mul y
  | .div => x.div y

/-- Whether a result beyond the finite doubles is below zero. -/
def overflowsBelow (op : ArithOp) (x y : Binary64) : Bool :=
  match op with
  | .add => x.negative
  | .sub => x.negative
  | .mul => x.negative != y.negative
  | .div => x.negative != y.negative

def onDoubles (op : ArithOp) (x y : Binary64) : Except EvalError Json :=
  if op = .div ∧ y.isZero then .error .divisionByZero
  else
    match op.double? x y with
    | some z => .ok (.num (.real z))
    | none => .error (.notNumeric (if op.overflowsBelow x y then "-inf" else "inf"))

/-- A date moved by days, or the days between two dates; nothing on other operands. -/
def onDate? (op : ArithOp) (date : Date) (right : Json) : Option (Except EvalError Json) :=
  let moved (days : Int) := (shiftDate date days).map Json.ofDate
  match op, right.int64?, right.date? with
  | .add, some days, _ => some (moved days)
  | .sub, some days, _ =>
    if fitsInt64 (-days) then some (moved (-days)) else some (.error (.dateOutOfRange days))
  | .sub, none, some other => some (.ok (.num (.ofInt (date.day - other.day))))
  | _, _, _ => none

/-- What is neither numbers nor dates: texts can be joined. -/
def onTexts (op : ArithOp) (v w : Json) : Except EvalError Json :=
  if op = .add ∧ (v.isString || w.isString) then .ok (.str (v.plain ++ w.plain))
  else
    let offender := if v.double?.isNone then v else w
    .error (.notNumeric offender.compact)

/-- Arithmetic on values that are not both whole numbers with an exact result: doubles first, then
dates, then texts. -/
def inexact (op : ArithOp) (v w : Json) : Except EvalError Json :=
  match v.double?, w.double? with
  | some x, some y => op.onDoubles x y
  | _, _ =>
    match v.date?.bind fun date => op.onDate? date w with
    | some result => result
    | none => op.onTexts v w

/-- Arithmetic on values: exact on whole numbers where the result is one. -/
def apply (op : ArithOp) (v w : Json) : Except EvalError Json :=
  match v.int64?, w.int64? with
  | some a, some b =>
    if op = .div ∧ b = 0 then .error .divisionByZero
    else
      match op.onInts? a b with
      | some i => .ok (.num (.ofInt i))
      | none => op.inexact v w
  | _, _ => op.inexact v w

end ArithOp

end Bylaw
