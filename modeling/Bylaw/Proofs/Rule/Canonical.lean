import Bylaw.Proofs.Token.Quoting
import Bylaw.Rule.Source

/-! The tokens of the canonical text of rules, the rules that reading can give, and those among them
that lie outside the spots where a canonical text is read in another way. -/

namespace Bylaw

open Token

/-- An item, those before it and those after it, each with the separator that stands between them
and the item. -/
theorem intercalate_middle {α : Type} (sep : List α) (before : List (List α)) (item : List α)
    (after : List (List α)) :
    sep.intercalate (before ++ item :: after) =
      before.flatMap (· ++ sep) ++ (item ++ after.flatMap (sep ++ ·)) := by
  induction before generalizing item with
  | nil =>
    rw [List.nil_append, List.flatMap_nil, List.nil_append]
    induction after generalizing item with
    | nil => simp
    | cons more after ih =>
      rw [List.intercalate_cons_cons, ih more, List.flatMap_cons]
      simp
  | cons first before ih =>
    have hne : before ++ item :: after ≠ [] := by simp
    obtain ⟨next, others, hnext⟩ := List.exists_cons_of_ne_nil hne
    rw [List.cons_append, hnext, List.intercalate_cons_cons, ← hnext, ih, List.flatMap_cons,
      List.append_assoc, List.append_assoc, List.append_assoc]

theorem intercalate_cons {α : Type} (x : α) (items : List α) (others : List (List α)) :
    [x].intercalate (items :: others) = items ++ others.flatMap (x :: ·) :=
  intercalate_middle [x] [] items others

/-- The tokens of a literal. -/
def Json.tokens : Json → List Token
  | .null => [.word "null"]
  | .bool true => [.word "true"]
  | .bool false => [.word "false"]
  | .num n => numberTokens n
  | .str s => [.str s]
  | .arr _ => []
  | .obj _ => []

/-- The tokens of today's date, moved by a number of days. -/
def todayTokens (offset : Int) : List Token :=
  if offset = 0 then [.word "current_date"]
  else if offset < 0 then
    [.word "current_date", .symbol .minus, .number (.ofNat offset.natAbs)]
  else [.word "current_date", .symbol .plus, .number (.ofNat offset.natAbs)]

def Operand.tokens : Operand → List Token
  | .literal v => v.tokens
  | .field path => [.word path.text]
  | .today offset => todayTokens offset

def Comparator.symbol : Comparator → Symbol
  | .eq => .equal
  | .ne => .notEqual
  | .gt => .greater
  | .ge => .greaterOrEqual
  | .lt => .less
  | .le => .lessOrEqual

def ArithOp.symbol : ArithOp → Symbol
  | .add => .plus
  | .sub => .minus
  | .mul => .star
  | .div => .slash

namespace Clause

def notTokens (negated : Bool) : List Token := if negated then [.word "NOT"] else []

def tokens : Clause → List Token
  | .compare left op right => left.tokens ++ .symbol op.symbol :: right.tokens
  | .present field negated => .word field.text :: (notTokens negated ++ [.word "EXISTS"])
  | .fits field p negated =>
    .word field.text :: (notTokens negated ++ [.word "MATCHES", .pattern p.source])
  | .contains field needle negated =>
    .word field.text :: (notTokens negated ++ .word "CONTAINS" :: needle.tokens)

/-- The pattern of a clause, if it has one. -/
def pattern? : Clause → Option Pattern
  | .fits _ p _ => some p
  | _ => none

/-- The text of the clauses before another. -/
def earlierText (clauses : List Clause) : List Char :=
  clauses.flatMap fun c => c.text.toList ++ " AND ".toList

/-- The tokens of the clauses before another. -/
def earlierTokens (clauses : List Clause) : List Token :=
  clauses.flatMap fun c => c.tokens ++ [.word "AND"]

/-- The text of the clauses after another. -/
def laterText (clauses : List Clause) : List Char :=
  clauses.flatMap fun c => " AND ".toList ++ c.text.toList

/-- The tokens of a condition. -/
def allTokens (clauses : List Clause) : List Token :=
  [.word "AND"].intercalate (clauses.map tokens)

end Clause

namespace Expr

/-- The tokens of an operand of arithmetic. -/
def parenthesizedTokens (inside : Bool) (ts : List Token) : List Token :=
  if inside then .symbol .openParen :: (ts ++ [.symbol .closeParen]) else ts

mutual

def tokens : Expr → List Token
  | .literal v => v.tokens
  | .template t => [.str t.source]
  | .field path => [.word path.text]
  | .today offset => todayTokens offset
  | .binary op left right =>
    parenthesizedTokens left.isCompound (tokens left) ++
      .symbol op.symbol :: parenthesizedTokens right.isCompound (tokens right)
  | .call handler args =>
    .word ("action." ++ handler) :: .symbol .openParen ::
      ([.symbol .comma].intercalate (tokensOfArgs args) ++ [.symbol .closeParen])

def tokensOfArgs : List Expr → List (List Token)
  | [] => []
  | e :: es => tokens e :: tokensOfArgs es

end

mutual

/-- An expression and all those inside it. -/
def nodes : Expr → List Expr
  | .literal v => [.literal v]
  | .template t => [.template t]
  | .field path => [.field path]
  | .today offset => [.today offset]
  | .binary op left right => .binary op left right :: (nodes left ++ nodes right)
  | .call handler args => .call handler args :: nodesOfArgs args

def nodesOfArgs : List Expr → List Expr
  | [] => []
  | e :: es => nodes e ++ nodesOfArgs es

end

theorem mem_nodes (e : Expr) : e ∈ e.nodes := by cases e <;> simp [nodes]

theorem textOfArgs_eq (es : List Expr) : textOfArgs es = es.map text := by
  induction es with
  | nil => rfl
  | cons e es ih => rw [textOfArgs, ih, List.map_cons]

theorem tokensOfArgs_eq (es : List Expr) : tokensOfArgs es = es.map tokens := by
  induction es with
  | nil => rfl
  | cons e es ih => rw [tokensOfArgs, ih, List.map_cons]

end Expr

def Action.tokens : Action → List Token
  | .update field value => .word "UPDATE" :: .word field.text :: .symbol .equal :: value.tokens
  | .notify message => [.word "NOTIFY", .str message.source]
  | .delete => [.word "DELETE"]
  | .create kind payload =>
    [.word "CREATE", .word kind, .word "WITH", .block payload.compact]
  | .send subject handler => [.word "SEND", .word subject, .word "TO", .word handler]
  | .invoke handler args =>
    .word "INVOKE" :: .word handler :: .symbol .openParen ::
      ([.symbol .comma].intercalate (args.map Json.tokens) ++ [.symbol .closeParen])
  | .stop => [.word "END"]

namespace Rule

def entityToken (entity : String) : Token :=
  if isIdentifier entity then .word entity else .str entity

def conditionTokens : Option (List Clause) → List Token
  | some clauses => .word "WHEN" :: Clause.allTokens clauses
  | none => []

/-- The tokens of a rule after its first word. -/
def body (rule : Rule) : List Token :=
  [.symbol .pipe].intercalate (rule.events.map fun e => [.word e.tag]) ++
    entityToken rule.entity :: (conditionTokens rule.condition ++
      .word "THEN" :: [.symbol .comma].intercalate (rule.actions.map Action.tokens))

/-- The patterns of a condition, in order. -/
def patterns (rule : Rule) : List Pattern := (rule.condition.getD []).filterMap Clause.pattern?

/-- The tokens of the canonical text of a rule. -/
def tokens (rule : Rule) : List Token := .word "IF" :: rule.body

end Rule

/-- A reference that `UPDATE` can set: it is one word, no keyword, and reads as itself. -/
structure FieldPath.IsTarget (path : FieldPath) : Prop where
  word : isWord path.text = true
  notKeyword : Rule.isKeyword path.text = false
  reads : read? path.text.toList = some path

/-- A reference that can stand for a value: it is no literal and not today's date either. -/
structure FieldPath.IsOperand (path : FieldPath) : Prop extends path.IsTarget where
  notLiteral : Rule.literalWord? path.text = none
  notToday : Rule.isToday path.text = false

/-- The offsets that a number token can give. -/
def IsOffset (offset : Int) : Prop := offset.natAbs < 0x8000000000000000

section

variable (number : Number → Prop)

/-- A value that can stand in a rule, `number` telling of which numbers. -/
def Json.IsLiteral : Json → Prop
  | .null | .bool _ | .str _ => True
  | .num n => number n
  | .arr _ | .obj _ => False

def Operand.IsProper : Operand → Prop
  | .literal v => v.IsLiteral number
  | .field path => path.IsOperand
  | .today offset => IsOffset offset

def Clause.IsProper : Clause → Prop
  | .compare left _ right => left.IsProper number ∧ right.IsProper number
  | .present field _ => field.IsOperand
  | .fits field p _ => field.IsOperand ∧ Slashed p.source.toList
  | .contains field needle _ => field.IsOperand ∧ needle.IsProper number

/-- An expression, those inside it apart, that reading can give. -/
def Expr.IsProper : Expr → Prop
  | .literal v => v.IsLiteral number ∧ v.isString = false
  | .template t => Template.read t.source = .ok t
  | .field path => path.IsOperand
  | .today offset => IsOffset offset
  | .binary _ _ _ => True
  | .call handler _ => Rule.isIdentifier handler = true

def Action.IsProper : Action → Prop
  | .update field value => field.IsTarget ∧ ∀ e ∈ value.nodes, e.IsProper number
  | .notify message => Template.read message.source = .ok message
  | .delete => True
  | .create _ payload =>
    payload.source.isObject = true ∧ Payload.ofJson payload.source = .ok payload
  | .send _ handler => Rule.isIdentifier handler = true
  | .invoke handler args =>
    Rule.isIdentifier handler = true ∧ ∀ v ∈ args, v.IsLiteral number
  | .stop => True

/-- A rule that reading can give. -/
structure Rule.IsProper (rule : Rule) : Prop where
  entity : rule.entity ≠ ""
  events : rule.events ≠ []
  sorted : Event.sorted rule.events = rule.events
  condition : ∀ clauses ∈ rule.condition, clauses ≠ [] ∧ ∀ c ∈ clauses, c.IsProper number
  actions : ∀ a ∈ rule.actions, a.IsProper number

end

/-- One word that is no keyword. -/
def IsName (w : String) : Prop := isWord w = true ∧ Rule.isKeyword w = false

/-- Whether a number is written with a sign. -/
def Number.isSigned (n : Number) : Bool := n.text.head? == some '-'

/-- Literals whose number, if they are one, is written without a power of ten. -/
def Json.IsOrdinary : Json → Prop
  | .num n => 'e' ∉ n.text
  | _ => True

def Operand.IsOrdinary : Operand → Prop
  | .literal v => v.IsOrdinary
  | _ => True

def Clause.IsOrdinary : Clause → Prop
  | .compare left _ right => left.IsOrdinary ∧ right.IsOrdinary
  | .contains _ needle _ => needle.IsOrdinary
  | _ => True

/-- Expressions, those inside them apart, that are not taken for something else when they are read
again: a sum of today's date and a number without a sign would be taken for an offset. -/
def Expr.IsOrdinary : Expr → Prop
  | .literal v => v.IsOrdinary
  | .binary op (.today 0) (.literal (.num n)) => op = .add ∨ op = .sub → n.isSigned = true
  | _ => True

/-- Actions whose kinds and subjects are names, whose handlers are no keywords, and whose values
are ordinary. -/
def Action.IsOrdinary : Action → Prop
  | .update _ value => ∀ e ∈ value.nodes, e.IsOrdinary
  | .create kind _ => IsName kind
  | .send subject handler => IsName subject ∧ Rule.isKeyword handler = false
  | .invoke handler args => Rule.isKeyword handler = false ∧ ∀ v ∈ args, v.IsOrdinary
  | _ => True

/-- Rules outside the spots where the canonical text is read in another way. -/
structure Rule.IsOrdinary (rule : Rule) : Prop where
  entity : isKeyword rule.entity = false
  condition : ∀ clauses ∈ rule.condition, ∀ c ∈ clauses, c.IsOrdinary
  actions : ∀ a ∈ rule.actions, a.IsOrdinary

/-- Actions whose values are ordinary. -/
def Action.ValuesOrdinary : Action → Prop
  | .update _ value => ∀ e ∈ value.nodes, e.IsOrdinary
  | .invoke _ args => ∀ v ∈ args, v.IsOrdinary
  | _ => True

/-- Actions whose kinds and subjects are names, and whose handlers are no keywords. -/
def Action.NamesOrdinary : Action → Prop
  | .create kind _ => IsName kind
  | .send subject handler => IsName subject ∧ Rule.isKeyword handler = false
  | .invoke handler _ => Rule.isKeyword handler = false
  | _ => True

theorem Action.isOrdinary_iff {a : Action} :
    a.IsOrdinary ↔ a.ValuesOrdinary ∧ a.NamesOrdinary := by
  cases a with
  | invoke handler args => exact And.comm
  | _ => simp [IsOrdinary, ValuesOrdinary, NamesOrdinary]

/-- Rules whose values are ordinary. -/
structure Rule.ValuesOrdinary (rule : Rule) : Prop where
  condition : ∀ clauses ∈ rule.condition, ∀ c ∈ clauses, c.IsOrdinary
  actions : ∀ a ∈ rule.actions, a.ValuesOrdinary

/-- Rules whose names, but for those of fields, are ordinary. -/
structure Rule.NamesOrdinary (rule : Rule) : Prop where
  entity : isKeyword rule.entity = false
  actions : ∀ a ∈ rule.actions, a.NamesOrdinary

theorem Rule.isOrdinary_iff {rule : Rule} :
    rule.IsOrdinary ↔ rule.ValuesOrdinary ∧ rule.NamesOrdinary := by
  constructor
  · intro h
    exact ⟨⟨h.condition, fun a ha => (Action.isOrdinary_iff.mp (h.actions a ha)).1⟩,
      ⟨h.entity, fun a ha => (Action.isOrdinary_iff.mp (h.actions a ha)).2⟩⟩
  · rintro ⟨hvalues, hnames⟩
    exact ⟨hnames.entity, hvalues.condition,
      fun a ha => Action.isOrdinary_iff.mpr ⟨hvalues.actions a ha, hnames.actions a ha⟩⟩

/-- Whether a token is a pattern between slashes. -/
def Token.isPattern : Token → Bool
  | .pattern _ => true
  | _ => false

/-- Whether the payload of an action, if it has one, is what its text is read as. -/
def Action.ReadsBack : Action → Prop
  | .create _ payload => Json.read payload.compact = .ok payload.source
  | _ => True

/-- The two characters that end lines. -/
def endsLine (c : Char) : Bool := c == '\r' || c == '\n'

/-- The characters of the patterns of clauses. -/
def Clause.sources (clauses : List Clause) : List Char :=
  (clauses.filterMap pattern?).flatMap fun p => p.source.toList

/-- Whether the slashes of no empty pattern begin a comment: of the ends of lines in the patterns
after it, the first is a carriage return, which spoils the line. -/
def Rule.IsShielded (rule : Rule) : Prop :=
  ∀ before p after, rule.patterns = before ++ p :: after → p.source = "" →
    (after.flatMap fun q => q.source.toList).find? endsLine = some '\r'

/-- Whether no comment that the slashes of an empty pattern begin ends in a pattern after it. -/
def Rule.CommentsReachEnd (rule : Rule) : Prop :=
  ∀ before p after, rule.patterns = before ++ p :: after → p.source = "" →
    (after.flatMap fun q => q.source.toList).find? endsLine ≠ some '\n'

theorem Rule.patterns_middle {rule : Rule} {before after : List Clause} {c : Clause}
    (h : rule.condition = some (before ++ c :: after)) {p : Pattern} (hp : c.pattern? = some p) :
    rule.patterns =
      before.filterMap Clause.pattern? ++ p :: after.filterMap Clause.pattern? := by
  rw [patterns, h, Option.getD_some, List.filterMap_append, List.filterMap_cons_some hp]

/-- Identifiers are words without a point. -/
theorem isWordPart_of_isIdentifier {name : String} (h : Rule.isIdentifier name = true) :
    ∀ c ∈ name.toList, isWordPart c = true ∧ c ≠ '.' := by
  have hpart {c : Char} (hc : (c.isAlphanum || c == '_') = true) :
      isWordPart c = true ∧ c ≠ '.' := by
    refine ⟨by simp [isWordPart, hc], ?_⟩
    rintro rfl
    exact absurd hc (by decide)
  unfold Rule.isIdentifier at h
  intro c hc
  split at h
  · cases h
  · rename_i d rest heq
    rw [heq] at hc
    simp only [Bool.and_eq_true, List.all_eq_true] at h
    rcases List.mem_cons.mp hc with rfl | hc
    · refine hpart ?_
      simp only [Char.isAlphanum, Bool.or_eq_true] at h ⊢
      rcases h.1 with h | h
      · exact .inl (.inl h)
      · exact .inr h
    · exact hpart (h.2 c hc)

theorem isWord_of_isIdentifier {name : String} (h : Rule.isIdentifier name = true) :
    isWord name = true := by
  have hparts := isWordPart_of_isIdentifier h
  unfold Rule.isIdentifier at h
  split at h
  · cases h
  · rename_i c rest heq
    simp only [Bool.and_eq_true] at h
    rw [heq] at hparts
    exact isWord_iff.mpr ⟨c, rest, heq, h.1, fun d hd => (hparts d (List.mem_cons_of_mem c hd)).1⟩

end Bylaw
