import Bylaw.Rule.Fault

/-! Reading the terms of rules: names, literals, operands, and the arithmetic of `UPDATE`. Products
bind tighter than sums, and both group to the left. -/

namespace Bylaw.Rule

/-- The words that are no names. -/
def keywords : List String :=
  ["IF", "WHEN", "THEN", "AND", "OR", "NOT", "EXISTS", "MATCHES", "CONTAINS", "UPDATE", "NOTIFY",
    "DELETE", "CREATE", "WITH", "SEND", "TO", "INVOKE", "END"]

def isKeyword (w : String) : Bool := keywords.contains w

/-- The literal that a word stands for, in any case. -/
def literalWord? (w : String) : Option Json :=
  let lower := w.toList.map Char.toLower
  if lower = ['t', 'r', 'u', 'e'] then some (.bool true)
  else if lower = ['f', 'a', 'l', 's', 'e'] then some (.bool false)
  else if lower = ['n', 'u', 'l', 'l'] then some .null
  else none

/-- Whether a word stands for today's date, in any case. -/
def isToday (w : String) : Bool :=
  w.toList.map Char.toLower == ['c', 'u', 'r', 'r', 'e', 'n', 't', '_', 'd', 'a', 't', 'e']

def negate (n : Number) : Number :=
  match n.int64? with
  | some i => .ofInt (-i)
  | none => .real n.toBinary64.neg

/-- A literal at the front of the tokens: a number with an optional sign, a string, a truth value or
null. -/
def literal? : (ts : List Token) → Option (Reading Json ts)
  | .number n :: _ => some (.ofHead (.num n))
  | .str s :: _ => some (.ofHead (.str s))
  | .word w :: _ => (literalWord? w).map .ofHead
  | .symbol .minus :: .number n :: _ => some (Reading.ofHead (.num (negate n))).behind
  | _ => none

/-- The number of days after the word for today's date, if it is followed by a sign and a number. -/
def todayOffset : (ts : List Token) → Except Rejection (Trailing Int ts)
  | .symbol .minus :: .number n :: rest =>
    match n.int64? with
    | some days => .ok ⟨-days, rest, by simp only [List.length_cons]; omega⟩
    | none => reject (.badOffset n) (.symbol .minus :: .number n :: rest)
  | .symbol .plus :: .number n :: rest =>
    match n.int64? with
    | some days => .ok ⟨days, rest, by simp only [List.length_cons]; omega⟩
    | none => reject (.badOffset n) (.symbol .plus :: .number n :: rest)
  | _ => .ok (.ofNone 0)

/-- The handler that a word names, with or without the leading `action.`. -/
def handlerName? (w : String) : Option String :=
  let name : String := match w.toList with
    | 'a' :: 'c' :: 't' :: 'i' :: 'o' :: 'n' :: '.' :: rest => .ofList rest
    | _ => w
  if isIdentifier name then some name else none

def handlerAt : List Token → Except Rejection (String × List Token)
  | .word w :: rest =>
    if isKeyword w then rejectExpected "handler name" (.word w :: rest)
    else
      match handlerName? w with
      | some name => .ok (name, rest)
      | none => reject (.badHandler w) (.word w :: rest)
  | ts => rejectExpected "handler name" ts

/-- A name at the front of the tokens: a word that is no keyword, or a string that is not empty. -/
def nameAt (what : String) : List Token → Except Rejection (String × List Token)
  | .word w :: rest =>
    if isKeyword w then rejectExpected what (.word w :: rest) else .ok (w, rest)
  | .str s :: rest => if s.isEmpty then rejectExpected what (.str s :: rest) else .ok (s, rest)
  | ts => rejectExpected what ts

def operandAt (ts : List Token) : Except Rejection (Operand × List Token) :=
  match literal? ts with
  | some r => .ok (.literal r.value, r.rest)
  | none =>
    match ts with
    | .word w :: rest =>
      if isToday w then (todayOffset rest).map fun r => (.today r.value, r.rest)
      else if isKeyword w then rejectExpected "field or value" ts
      else
        match FieldPath.read? w.toList with
        | some path => .ok (.field path, rest)
        | none => reject (.badField w) ts
    | _ => rejectExpected "field or value" ts

def sumOp? : Token → Option ArithOp
  | .symbol .plus => some .add
  | .symbol .minus => some .sub
  | _ => none

def productOp? : Token → Option ArithOp
  | .symbol .star => some .mul
  | .symbol .slash => some .div
  | _ => none

mutual

def sum (ts : List Token) : Except Rejection (Reading Expr ts) :=
  match product ts with
  | .error e => .error e
  | .ok left =>
    have := left.shorter
    match sumTail left.value left.rest with
    | .error e => .error e
    | .ok r => .ok ⟨r.value, r.rest, Nat.lt_of_le_of_lt r.notLonger left.shorter⟩
  termination_by (ts.length, 4)

/-- The terms that follow the first of a sum. -/
def sumTail (left : Expr) (ts : List Token) : Except Rejection (Trailing Expr ts) :=
  match ts with
  | [] => .ok (.ofNone left)
  | t :: rest =>
    match sumOp? t with
    | none => .ok (.ofNone left)
    | some op =>
      match product rest with
      | .error e => .error e
      | .ok right =>
        have := right.shorter
        match sumTail (.binary op left right.value) right.rest with
        | .error e => .error e
        | .ok r => .ok ⟨r.value, r.rest, by
            have := r.notLonger; have := right.shorter; simp only [List.length_cons]; omega⟩
  termination_by (ts.length, 3)

def product (ts : List Token) : Except Rejection (Reading Expr ts) :=
  match factor ts with
  | .error e => .error e
  | .ok left =>
    have := left.shorter
    match productTail left.value left.rest with
    | .error e => .error e
    | .ok r => .ok ⟨r.value, r.rest, Nat.lt_of_le_of_lt r.notLonger left.shorter⟩
  termination_by (ts.length, 2)

/-- The factors that follow the first of a product. -/
def productTail (left : Expr) (ts : List Token) : Except Rejection (Trailing Expr ts) :=
  match ts with
  | [] => .ok (.ofNone left)
  | t :: rest =>
    match productOp? t with
    | none => .ok (.ofNone left)
    | some op =>
      match factor rest with
      | .error e => .error e
      | .ok right =>
        have := right.shorter
        match productTail (.binary op left right.value) right.rest with
        | .error e => .error e
        | .ok r => .ok ⟨r.value, r.rest, by
            have := r.notLonger; have := right.shorter; simp only [List.length_cons]; omega⟩
  termination_by (ts.length, 1)

/-- What sums and products are made of. A minus before anything but a number subtracts it from
zero. -/
def factor (ts : List Token) : Except Rejection (Reading Expr ts) :=
  match ts with
  | .str s :: rest =>
    match Template.read s with
    | .ok t => .ok (.ofHead (.template t))
    | .error fault => reject (.badTemplate fault) (.str s :: rest)
  | .symbol .openParen :: rest =>
    match sum rest with
    | .error e => .error e
    | .ok inner =>
      match h : inner.rest with
      | .symbol .closeParen :: after => .ok ⟨inner.value, after, by
          have := inner.shorter; simp only [h, List.length_cons] at *; omega⟩
      | other => rejectExpected "')'" other
  -- The sign belongs to the number, so that no subtraction is left.
  | .symbol .minus :: .number n :: _ =>
    .ok (Reading.ofHead (.literal (.num (negate n)))).behind
  | .symbol .minus :: rest =>
    match factor rest with
    | .error e => .error e
    | .ok r => .ok (r.map (.binary .sub (.literal (.ofNat 0)))).behind
  | .number n :: _ => .ok (.ofHead (.literal (.num n)))
  | .word w :: rest =>
    match literalWord? w with
    | some v => .ok (.ofHead (.literal v))
    | none =>
      -- Literals and today's date go before keywords, and those before calls and fields.
      if isToday w then
        match todayOffset rest with
        | .error e => .error e
        | .ok r => .ok (r.map .today).behind
      else if isKeyword w then rejectExpected "value" (.word w :: rest)
      else
        match rest with
        | .symbol .openParen :: after =>
          match handlerName? w with
          | none => reject (.badHandler w) (.word w :: .symbol .openParen :: after)
          | some handler =>
            match after with
            | .symbol .closeParen :: _ => .ok (Reading.ofHead (.call handler [])).behind.behind
            | after =>
              match arguments after with
              | .error e => .error e
              | .ok r => .ok (r.map (.call handler)).behind.behind
        | rest =>
          match FieldPath.read? w.toList with
          | some path => .ok (.ofHead (.field path))
          | none => reject (.badField w) (.word w :: rest)
  | ts => rejectExpected "value" ts
  termination_by (ts.length, 0)

/-- The arguments of a call up to the closing parenthesis, at least one. -/
def arguments (ts : List Token) : Except Rejection (Reading (List Expr) ts) :=
  match sum ts with
  | .error e => .error e
  | .ok first =>
    match h : first.rest with
    | .symbol .comma :: rest =>
      have : rest.length < ts.length := by
        have := first.shorter; simp only [h, List.length_cons] at this; omega
      match arguments rest with
      | .error e => .error e
      | .ok r => .ok ⟨first.value :: r.value, r.rest, Nat.lt_trans r.shorter this⟩
    | .symbol .closeParen :: rest => .ok ⟨[first.value], rest, by
        have := first.shorter; simp only [h, List.length_cons] at this; omega⟩
    | other => rejectExpected "')'" other
  termination_by (ts.length, 5)

end

end Bylaw.Rule
