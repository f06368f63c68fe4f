import Bylaw.Rule.Term

/-! Reading one statement: events, entity, condition and actions. -/

namespace Bylaw.Rule

/-- The tokens after a symbol, if it comes first. -/
def afterSymbol? (s : Symbol) : List Token → Option (List Token)
  | .symbol t :: rest => if t = s then some rest else none
  | _ => none

/-- The tokens after a keyword, if it comes first. -/
def afterKeyword? (keyword : String) : List Token → Option (List Token)
  | .word w :: rest => if w = keyword then some rest else none
  | _ => none

def expectSymbol (s : Symbol) (what : String) (ts : List Token) : Except Rejection (List Token) :=
  match afterSymbol? s ts with
  | some rest => .ok rest
  | none => rejectExpected what ts

def expectKeyword (keyword : String) (ts : List Token) : Except Rejection (List Token) :=
  match afterKeyword? keyword ts with
  | some rest => .ok rest
  | none => rejectExpected keyword ts

/-- An event tag; `last` is the token before it. -/
def eventAt (last : Token) : (ts : List Token) → Except Rejection (Reading Event ts)
  | .word w :: rest =>
    match Event.ofTag? w with
    | some e => .ok (.ofHead e)
    | none => reject (.unknownEvent w) rest
  | ts => rejectAfter "event tag" last ts

/-- Whether an event tag comes first, and then something that can be an entity. -/
def tagThenEntity : List Token → Bool
  | .word w :: .word next :: _ => (Event.ofTag? w).isSome && !isKeyword next
  | .word w :: .str _ :: _ => (Event.ofTag? w).isSome
  | _ => false

/-- The event tags after the first: each after a bar, a comma, or nothing. -/
def moreEvents (ts : List Token) : Except Rejection (List Event × List Token) :=
  match ts with
  | [] => .ok ([], [])
  | t :: rest =>
    if t = .symbol .pipe ∨ t = .symbol .comma then
      match eventAt t rest with
      | .error e => .error e
      | .ok r =>
        have := r.shorter
        (moreEvents r.rest).map fun (events, rest) => (r.value :: events, rest)
    else if tagThenEntity (t :: rest) then
      match eventAt t (t :: rest) with
      | .error e => .error e
      | .ok r =>
        have := r.shorter
        (moreEvents r.rest).map fun (events, rest) => (r.value :: events, rest)
    else .ok ([], t :: rest)
  termination_by ts.length
  decreasing_by all_goals simp only [List.length_cons] at *; omega

/-- An entity: a word that is no keyword and has no point, or a string that is not empty. -/
def entityAt : List Token → Except Rejection (String × List Token)
  | .word w :: rest =>
    if isKeyword w || w.toList.contains '.' then rejectExpected "entity name" (.word w :: rest)
    else .ok (w, rest)
  | .str s :: rest =>
    if s.isEmpty then rejectExpected "entity name" (.str s :: rest) else .ok (s, rest)
  | ts => rejectExpected "entity name" ts

/-- The pattern of a clause, in parentheses or not; `last` is the token before it. -/
def patternAt (last : Token) (ts : List Token) : Except Rejection (Pattern × List Token) := do
  let (opened, last, ts) := match afterSymbol? .openParen ts with
    | some rest => (true, Token.symbol .openParen, rest)
    | none => (false, last, ts)
  let (source, rest) ← match ts with
    | .pattern source :: rest => pure (source, rest)
    | .str source :: rest => pure (source, rest)
    | ts => rejectAfter "regex after MATCHES" last ts
  let rest ← if opened then expectSymbol .closeParen "')'" rest else pure rest
  match Pattern.ofSource source with
  | .ok p => pure (p, rest)
  | .error fault => reject (.badPattern source fault) rest

def comparator? : Symbol → Option Comparator
  | .equal => some .eq
  | .notEqual => some .ne
  | .greater => some .gt
  | .greaterOrEqual => some .ge
  | .less => some .lt
  | .lessOrEqual => some .le
  | _ => none

def isTest (w : String) : Bool := w == "EXISTS" || w == "MATCHES" || w == "CONTAINS"

/-- The test of a field, whose first word is `w`. -/
def fieldTest (field : FieldPath) (negated : Bool) (w : String) (rest : List Token) :
    Except Rejection (Clause × List Token) :=
  if w = "EXISTS" then .ok (.present field negated, rest)
  else if w = "MATCHES" then
    (patternAt (.word w) rest).map fun (p, rest) => (.fits field p negated, rest)
  else (operandAt rest).map fun (needle, rest) => (.contains field needle negated, rest)

def clauseAt (ts : List Token) : Except Rejection (Clause × List Token) := do
  let (left, rest) ← operandAt ts
  match rest with
  | .symbol s :: after =>
    match comparator? s with
    | some op =>
      let (right, rest) ← operandAt after
      pure (.compare left op right, rest)
    | none => rejectExpected "comparison operator" rest
  | _ =>
    let (negated, rest) := match afterKeyword? "NOT" rest with
      | some after => (true, after)
      | none => (false, rest)
    match rest with
    | .word w :: after =>
      if isTest w then
        match left with
        | .field field => fieldTest field negated w after
        | _ => reject (.needsField w left) rest
      else reject (.notComparison left rest.head?) rest
    | _ => reject (.notComparison left rest.head?) rest

/-- The terms of a condition after the first. No tokens are left after a term that are not fewer
than those before it. -/
def moreClauses (ts : List Token) : Except Rejection (List Clause × List Token) :=
  match afterKeyword? "AND" ts with
  | some rest =>
    match clauseAt rest with
    | .error e => .error e
    | .ok (c, rest) =>
      if _h : rest.length < ts.length then
        (moreClauses rest).map fun (clauses, rest) => (c :: clauses, rest)
      else .ok ([c], rest)
  | none =>
    match afterKeyword? "OR" ts with
    | some _ => reject .disjunction ts
    | none => .ok ([], ts)
  termination_by ts.length

def conditionAt (ts : List Token) : Except Rejection (List Clause × List Token) := do
  let (first, rest) ← clauseAt ts
  let (others, rest) ← moreClauses rest
  pure (first :: others, rest)

/-- The words that begin actions. -/
def verbs : List String := ["UPDATE", "NOTIFY", "DELETE", "CREATE", "SEND", "INVOKE", "END"]

/-- The literals in the parentheses of an action, the opening one having been read. -/
def literals (ts : List Token) : Except Rejection (List Json × List Token) :=
  match literal? ts with
  | none => reject (.notLiteral ts.head?) ts
  | some first =>
    match h : afterSymbol? .comma first.rest with
    | some rest =>
      have : rest.length < ts.length := by
        have := first.shorter
        unfold afterSymbol? at h
        split at h
        · rename_i hrest
          split at h
          · simp at h; subst h; simp [hrest] at this; omega
          · simp at h
        · simp at h
      (literals rest).map fun (values, rest) => (first.value :: values, rest)
    | none => (expectSymbol .closeParen "')'" first.rest).map fun rest => ([first.value], rest)
  termination_by ts.length

/-- Sets a field: a reference, an equals sign and an expression. -/
def updateAction (ts : List Token) : Except Rejection (Action × List Token) := do
  let (field, rest) ← match ts with
    | .word w :: rest =>
      if isKeyword w then rejectExpected "field after UPDATE" ts
      else
        match FieldPath.read? w.toList with
        | some path => pure (path, rest)
        | none => reject (.badField w) rest
    | ts => rejectAfter "field after UPDATE" (.word "UPDATE") ts
  let rest ← expectSymbol .equal "'=' after UPDATE field" rest
  let r ← sum rest
  pure (.update field r.value, r.rest)

/-- Sends a message: a template in quotes. -/
def notifyAction : List Token → Except Rejection (Action × List Token)
  | .str s :: rest =>
    match Template.read s with
    | .ok t => .ok (.notify t, rest)
    | .error fault => reject (.badTemplate fault) rest
  | ts => rejectAfter "quoted template after NOTIFY" (.word "NOTIFY") ts

/-- Creates a record: its kind, and an object whose strings are templates. -/
def createAction (ts : List Token) : Except Rejection (Action × List Token) := do
  let (kind, rest) ← nameAt "record kind after CREATE" ts
  let rest ← expectKeyword "WITH" rest
  match rest with
  | .block raw :: rest =>
    match Json.read raw with
    | .error fault => reject (.badJson fault) rest
    | .ok value =>
      if !value.isObject then reject .notObject rest
      else
        match Payload.ofJson value with
        | .ok payload => pure (.create kind payload, rest)
        | .error fault => reject (.badTemplate fault) rest
  | rest => rejectAfter "\x7b...\x7d after WITH" (.word "WITH") rest

def sendAction (ts : List Token) : Except Rejection (Action × List Token) := do
  let (subject, rest) ← nameAt "subject after SEND" ts
  let rest ← expectKeyword "TO" rest
  let (handler, rest) ← handlerAt rest
  pure (.send subject handler, rest)

/-- Calls a handler with literals. The parentheses may be left out. -/
def invokeAction (ts : List Token) : Except Rejection (Action × List Token) := do
  let (handler, rest) ← handlerAt ts
  match afterSymbol? .openParen rest with
  | none => pure (.invoke handler [], rest)
  | some rest =>
    match afterSymbol? .closeParen rest with
    | some rest => pure (.invoke handler [], rest)
    | none =>
      let (args, rest) ← literals rest
      pure (.invoke handler args, rest)

def actionAt (ts : List Token) : Except Rejection (Action × List Token) :=
  match ts with
  | .word "UPDATE" :: rest => updateAction rest
  | .word "NOTIFY" :: rest => notifyAction rest
  | .word "DELETE" :: rest => .ok (.delete, rest)
  | .word "CREATE" :: rest => createAction rest
  | .word "SEND" :: rest => sendAction rest
  | .word "INVOKE" :: rest => invokeAction rest
  | .word "END" :: rest => .ok (.stop, rest)
  | ts => reject (.unknownAction ts.head?) ts

def startsAction : List Token → Bool
  | .word w :: _ => verbs.contains w
  | _ => false

/-- The actions of a rule, up to the end of the statement. A comma may stand between two of them. -/
def actionsAt (ts : List Token) : Except Rejection (List Action) :=
  match ts with
  | [] => .ok []
  | t :: ts' =>
    match actionAt (t :: ts') with
    | .error e => .error e
    | .ok (a, rest) =>
      if _h : rest.length < (t :: ts').length then
        match afterSymbol? .comma rest with
        | some after =>
          -- A comma promises one more action.
          if after.isEmpty then reject .missingAction after
          else if _h' : after.length < (t :: ts').length then (actionsAt after).map (a :: ·)
          -- Not reached: what is read is always shorter.
          else .ok [a]
        | none =>
          if rest.isEmpty then .ok [a]
          else if startsAction rest then (actionsAt rest).map (a :: ·)
          else rejectExpected "',' or next action" rest
      else .ok [a]
  termination_by ts.length
  decreasing_by
  · exact _h'
  · exact _h

/-- A rule that takes up all of a statement; its line is that of the first token. -/
def statement (line : Nat) (ts : List Token) : Except Rejection Rule := do
  let rest ← expectKeyword "IF" ts
  let first ← eventAt (.word "IF") rest
  let (others, rest) ← moreEvents first.rest
  let (entity, rest) ← entityAt rest
  let (condition, rest) ← match afterKeyword? "WHEN" rest with
    | some rest => do
      let (clauses, rest) ← conditionAt rest
      pure (some clauses, rest)
    | none => pure (none, rest)
  match afterKeyword? "THEN" rest with
  | none => rejectExpected "WHEN or THEN" rest
  | some rest =>
    let actions ← actionsAt rest
    -- Events are kept in order of declaration, each once.
    pure ⟨entity, Event.sorted (first.value :: others), condition, actions, line⟩

end Bylaw.Rule
