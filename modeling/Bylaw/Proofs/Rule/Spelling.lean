import Bylaw.Proofs.Rule.Line

/-! The canonical text of rules in front of other text. Main statement: the text of every clause,
action and rule that reading can give is read as its tokens, unless the slashes of an empty pattern
begin a comment. -/

namespace Bylaw

open Token

namespace Token.Spells

variable {cs : List Char} {rest : List Char}

theorem word_blank {s w : String} (hs : s.toList = w.toList ++ [' ']) (hw : isWord w = true)
    (hm : w ≠ "MATCHES") (rest : List Char) : Spells s.toList [.word w] rest := by
  rw [hs]
  exact (Spells.word hw hm (stops_cons _ rfl)).append (Spells.blank (c := ' ') rfl rest)

theorem blank_cons {ts : List Token} (h : Spells cs ts rest) : Spells (' ' :: cs) ts rest :=
  (Spells.blank (c := ' ') rfl _).append h

theorem symbol_blank {ts : List Token} (s : Symbol) (h : Spells cs ts rest) :
    Spells (s.text.toList ++ ' ' :: cs) (.symbol s :: ts) rest :=
  (Spells.symbol (s := s) (.inr rfl)).append h.blank_cons

theorem intercalate {α : Type} {text : α → List Char} {toks : α → List Token} {sep : List Char}
    {ts : List Token} (hsep : ∀ rest, Spells sep ts rest) (hstops : ∀ rest, Stops (sep ++ rest))
    {items : List α} (h : ∀ x ∈ items, ∀ rest, Stops rest → Spells (text x) (toks x) rest)
    (hrest : Stops rest) :
    Spells (sep.intercalate (items.map text)) (ts.intercalate (items.map toks)) rest := by
  induction items with
  | nil => exact Spells.nil rest
  | cons x items ih =>
    have hitems := ih fun y hy => h y (List.mem_cons_of_mem x hy)
    cases items with
    | nil =>
      simp only [List.map_cons, List.map_nil, List.intercalate_singleton]
      exact h x List.mem_cons_self rest hrest
    | cons y items =>
      simp only [List.map_cons, List.intercalate_cons_cons, List.append_assoc] at hitems ⊢
      refine (h x List.mem_cons_self _ ?_).append ((hsep _).append hitems)
      rw [List.append_assoc]
      exact hstops _

end Token.Spells

theorem stops_blank (rest : List Char) : Stops (' ' :: rest) := stops_cons rest rfl

section

variable {rest : List Char}

theorem Json.spells {v : Json} (hv : v.IsLiteral isWritable) (h : Stops rest) :
    Spells v.text v.tokens rest := by
  match v, hv with
  | .null, _ => exact Spells.word (w := "null") rfl (by decide) h
  | .bool true, _ => exact Spells.word (w := "true") rfl (by decide) h
  | .bool false, _ => exact Spells.word (w := "false") rfl (by decide) h
  | .num n, hv => exact Spells.number hv h
  | .str s, _ => exact Spells.quote s rest

theorem spells_today {offset : Int} (ho : IsOffset offset) (h : Stops rest) :
    Spells (todayText offset).toList (todayTokens offset) rest := by
  have htoday (rest : List Char) :
      Spells "current_date ".toList [.word "current_date"] rest :=
    Spells.word_blank (w := "current_date") rfl rfl (by decide) rest
  have hmoved (sign : Symbol) : Spells ("current_date ".toList ++
        (sign.text.toList ++ ' ' :: Decimal.digitChars offset.natAbs))
      [.word "current_date", .symbol sign, .number (.ofNat offset.natAbs)] rest :=
    (htoday _).append (Spells.symbol_blank sign (Spells.whole ho h))
  unfold todayText todayTokens
  split
  · exact Spells.word (w := "current_date") rfl (by decide) h
  · split
    · have := hmoved .minus
      simpa [Symbol.text] using this
    · have := hmoved .plus
      simpa [Symbol.text] using this

theorem FieldPath.IsTarget.ne_keyword {path : FieldPath} (hp : path.IsTarget) {w : String}
    (hw : Rule.isKeyword w = true) : path.text ≠ w := by
  rintro rfl
  rw [hp.notKeyword] at hw
  cases hw

theorem FieldPath.IsTarget.spells {path : FieldPath} (hp : path.IsTarget) (h : Stops rest) :
    Spells path.text.toList [.word path.text] rest :=
  Spells.word hp.word (hp.ne_keyword (by decide)) h

theorem Operand.spells {x : Operand} (hx : x.IsProper isWritable) (h : Stops rest) :
    Spells x.text.toList x.tokens rest := by
  cases x with
  | literal v =>
    rw [Operand.text, Json.compact, String.toList_ofList]
    exact Json.spells hx h
  | field path => exact hx.toIsTarget.spells h
  | today offset => exact spells_today hx h

theorem Comparator.text_eq (op : Comparator) : op.text = op.symbol.text := by cases op <;> rfl

theorem ArithOp.text_eq (op : ArithOp) : op.text = op.symbol.text := by cases op <;> rfl

theorem Clause.spells_not (negated : Bool) (rest : List Char) :
    Spells (notText negated).toList (notTokens negated) rest := by
  cases negated with
  | true => exact Spells.word_blank (w := "NOT") rfl rfl (by decide) rest
  | false => exact Spells.nil rest

/-- A clause in front of other text. The slashes of an empty pattern must not begin a comment. -/
theorem Clause.spells {c : Clause} (hc : c.IsProper isWritable)
    (hempty : ∀ p ∈ c.pattern?, p.source = "" → dropLine rest = none) (h : Stops rest) :
    Spells c.text.toList c.tokens rest := by
  cases c with
  | compare left op right =>
    have htext : (Clause.compare left op right).text.toList =
        left.text.toList ++ ' ' :: (op.symbol.text.toList ++ ' ' :: right.text.toList) := by
      simp [Clause.text, op.text_eq]
    rw [htext]
    exact (Operand.spells hc.1 (stops_blank _)).append
      (Spells.symbol_blank op.symbol (Operand.spells hc.2 h)).blank_cons
  | present field negated =>
    have htext : (Clause.present field negated).text.toList =
        field.text.toList ++ ' ' :: ((notText negated).toList ++ "EXISTS".toList) := by
      simp [Clause.text]
    rw [htext]
    exact (FieldPath.IsTarget.spells hc.toIsTarget (stops_blank _)).append
      ((spells_not negated _).append (Spells.word (w := "EXISTS") rfl (by decide) h)).blank_cons
  | fits field p negated =>
    have htext : (Clause.fits field p negated).text.toList =
        field.text.toList ++ ' ' :: ((notText negated).toList ++
          ("MATCHES ".toList ++ '/' :: (slashText p.source.toList ++ ['/']))) := by
      simp [Clause.text, Pattern.text, slashText]
    -- An empty pattern is read only where its slashes begin no comment.
    have hpattern := Spells.pattern hc.2 fun hnil => hempty p rfl (String.toList_eq_nil_iff.mp hnil)
    rw [String.ofList_toList] at hpattern
    rw [htext]
    exact (hc.1.toIsTarget.spells (stops_blank _)).append
      ((spells_not negated _).append hpattern).blank_cons
  | contains field needle negated =>
    have htext : (Clause.contains field needle negated).text.toList =
        field.text.toList ++ ' ' :: ((notText negated).toList ++
          ("CONTAINS ".toList ++ needle.text.toList)) := by
      simp [Clause.text]
    have hneedle : Spells ("CONTAINS ".toList ++ needle.text.toList)
        (.word "CONTAINS" :: needle.tokens) rest :=
      (Spells.word_blank (w := "CONTAINS") rfl rfl (by decide) _).append (Operand.spells hc.2 h)
    rw [htext]
    exact (hc.1.toIsTarget.spells (stops_blank _)).append
      ((spells_not negated _).append hneedle).blank_cons

theorem spells_joinWith {α : Type} {text : α → String} {toks : α → List Token} {sep : String}
    {ts : List Token} (hsep : ∀ rest, Spells sep.toList ts rest)
    (hstops : ∀ rest, Stops (sep.toList ++ rest)) {items : List α}
    (h : ∀ x ∈ items, ∀ rest, Stops rest → Spells (text x).toList (toks x) rest)
    (hrest : Stops rest) :
    Spells (joinWith sep (items.map text)).toList (ts.intercalate (items.map toks)) rest := by
  rw [joinWith, String.toList_intercalate, List.map_map]
  exact Spells.intercalate hsep hstops h hrest

theorem spells_comma (rest : List Char) : Spells ", ".toList [.symbol .comma] rest :=
  (Spells.symbol (s := .comma) (.inl rfl)).append (Spells.blank (c := ' ') rfl rest)

theorem spells_openParen (rest : List Char) : Spells ['('] [.symbol .openParen] rest :=
  Spells.symbol (s := .openParen) (.inl rfl)

theorem spells_closeParen (rest : List Char) : Spells [')'] [.symbol .closeParen] rest :=
  Spells.symbol (s := .closeParen) (.inl rfl)

theorem stops_comma (rest : List Char) : Stops (", ".toList ++ rest) := stops_cons _ rfl

namespace Expr

theorem spells_parenthesized {inside : Bool} {text : String} {ts : List Token}
    (h : ∀ rest, Stops rest → Spells text.toList ts rest) (hrest : Stops rest) :
    Spells (parenthesized inside text).toList (parenthesizedTokens inside ts) rest := by
  cases inside with
  | false => exact h rest hrest
  | true =>
    have htext : (parenthesized true text).toList = ['('] ++ (text.toList ++ [')']) := by
      simp [parenthesized]
    rw [htext]
    exact (spells_openParen _).append
      ((h _ (stops_cons _ rfl)).append (spells_closeParen rest))

theorem isWord_handler {handler : String} (h : Rule.isIdentifier handler = true) :
    isWord ("action." ++ handler) = true := by
  have htext : ("action." ++ handler).toList =
      'a' :: (['c', 't', 'i', 'o', 'n', '.'] ++ handler.toList) := by
    simp
  refine isWord_iff.mpr ⟨'a', _, htext, by decide, fun d hd => ?_⟩
  rcases List.mem_append.mp hd with hd | hd
  · have hdotted : ['c', 't', 'i', 'o', 'n', '.'].all isWordPart = true := by decide
    exact List.all_eq_true.mp hdotted d hd
  · exact (isWordPart_of_isIdentifier h d hd).1

mutual

/-- An expression in front of other text. -/
theorem spells (e : Expr) (he : ∀ n ∈ e.nodes, n.IsProper isWritable) :
    ∀ rest, Stops rest → Spells e.text.toList e.tokens rest := by
  intro rest hrest
  match e with
  | .literal v =>
    rw [text, Json.compact, String.toList_ofList]
    have hv : v.IsLiteral isWritable ∧ v.isString = false := he (.literal v) (by simp [nodes])
    exact Json.spells hv.1 hrest
  | .template t =>
    rw [text, Template.quoted, String.toList_ofList]
    exact Spells.quote t.source rest
  | .field path =>
    have hpath : path.IsOperand := he (.field path) (by simp [nodes])
    exact hpath.toIsTarget.spells hrest
  | .today offset => exact spells_today (he (.today offset) (by simp [nodes])) hrest
  | .binary op left right =>
    have hleft := spells left fun n hn => he n (by simp [nodes, hn])
    have hright := spells right fun n hn => he n (by simp [nodes, hn])
    have htext : (Expr.binary op left right).text.toList =
        (parenthesized left.isCompound left.text).toList ++ ' ' :: (op.symbol.text.toList ++
          ' ' :: (parenthesized right.isCompound right.text).toList) := by
      simp [text, op.text_eq]
    rw [htext, tokens]
    exact (spells_parenthesized hleft (stops_blank _)).append
      (Spells.symbol_blank op.symbol (spells_parenthesized hright hrest)).blank_cons
  | .call handler args =>
    have hargs := spells_args args fun n hn => he n (by simp [nodes, hn])
    have hhandler : Rule.isIdentifier handler = true := he (.call handler args) (by simp [nodes])
    have htext : (Expr.call handler args).text.toList = ("action." ++ handler).toList ++
        (['('] ++ ((joinWith ", " (args.map text)).toList ++ [')'])) := by
      simp [text, textOfArgs_eq]
    have hword : Spells ("action." ++ handler).toList [.word ("action." ++ handler)]
        (['('] ++ ((joinWith ", " (args.map text)).toList ++ [')']) ++ rest) := by
      refine Spells.word (isWord_handler hhandler) ?_ (stops_cons _ rfl)
      intro hm
      have := congrArg (fun w => w.toList.head?) hm
      simp at this
    rw [htext, tokens, tokensOfArgs_eq]
    exact hword.append ((spells_openParen _).append
      ((spells_joinWith spells_comma stops_comma hargs (stops_cons _ rfl)).append
        (spells_closeParen rest)))

theorem spells_args (es : List Expr) (he : ∀ n ∈ nodesOfArgs es, n.IsProper isWritable) :
    ∀ e ∈ es, ∀ rest, Stops rest → Spells e.text.toList e.tokens rest := by
  match es with
  | [] =>
    intro e h
    cases h
  | x :: es =>
    have hx := spells x fun n hn => he n (by simp [nodesOfArgs, hn])
    have hes := spells_args es fun n hn => he n (by simp [nodesOfArgs, hn])
    intro e h
    rcases List.mem_cons.mp h with rfl | h
    · exact hx
    · exact hes e h

end

end Expr

theorem IsName.spells {w : String} (hw : IsName w) (h : Stops rest) :
    Spells w.toList [.word w] rest := by
  refine Spells.word hw.1 ?_ h
  rintro rfl
  exact absurd hw.2 (by decide)

theorem isName_of_isIdentifier {name : String} (h : Rule.isIdentifier name = true)
    (hk : Rule.isKeyword name = false) : IsName name :=
  ⟨isWord_of_isIdentifier h, hk⟩

/-- A payload is one token. -/
theorem Payload.spells {payload : Payload} (h : payload.source.isObject = true)
    (rest : List Char) : Spells payload.compact.toList [.block payload.compact] rest := by
  rw [compact, Json.compact, String.toList_ofList, ← Json.compact]
  cases hs : payload.source with
  | obj fields => exact Spells.object fields rest
  | null | bool _ | num _ | str _ | arr _ =>
    rw [hs] at h
    cases h

theorem Action.spells {a : Action} (ha : a.IsProper isWritable) (ho : a.IsOrdinary)
    (h : Stops rest) : Spells a.text.toList a.tokens rest := by
  cases a with
  | update field value =>
    have htext : (Action.update field value).text.toList = "UPDATE ".toList ++
        (field.text.toList ++ ' ' :: (Symbol.equal.text.toList ++ ' ' :: value.text.toList)) := by
      simp [Action.text, Symbol.text]
    rw [htext]
    exact (Spells.word_blank (w := "UPDATE") rfl rfl (by decide) _).append
      ((ha.1.spells (stops_blank _)).append
        (Spells.symbol_blank .equal (value.spells ha.2 rest h)).blank_cons)
  | notify message =>
    have htext : (Action.notify message).text.toList =
        "NOTIFY ".toList ++ Json.quote message.source := by
      simp [Action.text, Template.quoted]
    rw [htext]
    exact (Spells.word_blank (w := "NOTIFY") rfl rfl (by decide) _).append
      (Spells.quote message.source rest)
  | delete => exact Spells.word (w := "DELETE") rfl (by decide) h
  | create kind payload =>
    have htext : (Action.create kind payload).text.toList = "CREATE ".toList ++
        (kind.toList ++ ' ' :: ("WITH ".toList ++ payload.compact.toList)) := by
      simp [Action.text]
    rw [htext]
    exact (Spells.word_blank (w := "CREATE") rfl rfl (by decide) _).append
      ((IsName.spells ho (stops_blank _)).append
        ((Spells.word_blank (w := "WITH") rfl rfl (by decide) _).append
          (Payload.spells ha.1 rest)).blank_cons)
  | send subject handler =>
    have htext : (Action.send subject handler).text.toList = "SEND ".toList ++
        (subject.toList ++ ' ' :: ("TO ".toList ++ handler.toList)) := by
      simp [Action.text]
    rw [htext]
    exact (Spells.word_blank (w := "SEND") rfl rfl (by decide) _).append
      ((ho.1.spells (stops_blank _)).append
        ((Spells.word_blank (w := "TO") rfl rfl (by decide) _).append
          ((isName_of_isIdentifier ha ho.2).spells h)).blank_cons)
  | invoke handler args =>
    -- The arguments are literals, each of which ends at a comma or at the parenthesis.
    have hargs (v : Json) (hv : v ∈ args) (rest : List Char) (hrest : Stops rest) :
        Spells v.compact.toList v.tokens rest := by
      rw [Json.compact, String.toList_ofList]
      exact Json.spells (ha.2 v hv) hrest
    have htext : (Action.invoke handler args).text.toList = "INVOKE ".toList ++
        (handler.toList ++
          (['('] ++ ((joinWith ", " (args.map Json.compact)).toList ++ [')']))) := by
      simp [Action.text]
    rw [htext]
    exact (Spells.word_blank (w := "INVOKE") rfl rfl (by decide) _).append
      (((isName_of_isIdentifier ha.1 ho.1).spells (stops_cons _ rfl)).append
        ((spells_openParen _).append
          ((spells_joinWith spells_comma stops_comma hargs (stops_cons _ rfl)).append
            (spells_closeParen rest))))
  | stop => exact Spells.word (w := "END") rfl (by decide) h

namespace Rule

/-- The text of a rule up to its entity. -/
def headText (rule : Rule) : List Char :=
  "IF ".toList ++ ((joinWith "|" (rule.events.map Event.tag)).toList ++
    ' ' :: (entityText rule.entity).toList)

theorem headText_eq (rule : Rule) :
    rule.headText =
      ("IF ".toList ++ ((joinWith "|" (rule.events.map Event.tag)).toList ++ [' '])) ++
        (entityText rule.entity).toList := by
  simp [headText]

/-- The text of a rule after its condition. -/
def tailText (rule : Rule) : List Char := " THEN".toList ++ (actionsText rule.actions).toList

theorem text_eq (rule : Rule) :
    rule.text.toList =
      rule.headText ++ ((conditionText rule.condition).toList ++ rule.tailText) := by
  delta headText tailText
  simp [text]

theorem isWord_tag (e : Event) : isWord e.tag = true ∧ e.tag ≠ "MATCHES" := by
  cases e <;> decide

theorem spells_entity {rule : Rule} (ho : rule.IsOrdinary) (h : Stops rest) :
    Spells (entityText rule.entity).toList [entityToken rule.entity] rest := by
  unfold entityText entityToken
  split
  · rename_i hi
    exact (isName_of_isIdentifier hi ho.entity).spells h
  · rw [String.toList_ofList]
    exact Spells.quote rule.entity rest

/-- The events of a rule, up to the blank after them. -/
theorem spells_events (events : List Event) (rest : List Char) :
    Spells ("IF ".toList ++ ((joinWith "|" (events.map Event.tag)).toList ++ [' ']))
      (.word "IF" :: [.symbol .pipe].intercalate (events.map fun e => [.word e.tag])) rest := by
  have hif (rest : List Char) : Spells "IF ".toList [.word "IF"] rest :=
    Spells.word_blank rfl rfl (by decide) rest
  have hpipe (rest : List Char) : Spells "|".toList [.symbol .pipe] rest :=
    Spells.symbol (s := .pipe) (.inl rfl)
  have htag (e : Event) (_ : e ∈ events) (rest : List Char) (hrest : Stops rest) :
      Spells e.tag.toList [.word e.tag] rest :=
    Spells.word (isWord_tag e).1 (isWord_tag e).2 hrest
  have htags := (spells_joinWith hpipe (fun _ => stops_cons _ rfl) htag (stops_blank rest)).append
    (Spells.blank (c := ' ') rfl rest)
  rw [List.append_nil] at htags
  exact (hif _).append htags

theorem spells_head {rule : Rule} (ho : rule.IsOrdinary) (h : Stops rest) :
    Spells rule.headText
      (.word "IF" :: ([.symbol .pipe].intercalate (rule.events.map fun e => [.word e.tag]) ++
        [entityToken rule.entity])) rest := by
  rw [headText_eq]
  exact (spells_events rule.events _).append (spells_entity ho h)

theorem earlierText_cons (d : Clause) (before : List Clause) :
    Clause.earlierText (d :: before) =
      d.text.toList ++ (" AND ".toList ++ Clause.earlierText before) := by
  rw [Clause.earlierText, List.flatMap_cons, List.append_assoc]
  rfl

theorem laterText_middle (before : List Clause) (c : Clause) (after : List Clause) :
    Clause.laterText (before ++ c :: after) = " AND ".toList ++
      (Clause.earlierText before ++ (c.text.toList ++ Clause.laterText after)) := by
  induction before with
  | nil => simp [Clause.laterText, Clause.earlierText]
  | cons d before ih =>
    rw [List.cons_append, Clause.laterText, List.flatMap_cons, ← Clause.laterText, ih,
      earlierText_cons]
    simp only [List.append_assoc]

theorem conditionText_middle (before : List Clause) (c : Clause) (after : List Clause) :
    (conditionText (some (before ++ c :: after))).toList = " WHEN ".toList ++
      (Clause.earlierText before ++ (c.text.toList ++ Clause.laterText after)) := by
  have hall : (Clause.allText (before ++ c :: after)).toList =
      Clause.earlierText before ++ (c.text.toList ++ Clause.laterText after) := by
    rw [Clause.allText, joinWith, String.toList_intercalate, List.map_append, List.map_append,
      List.map_cons, List.map_cons, intercalate_middle, List.map_map, List.map_map,
      List.flatMap_map, List.flatMap_map]
    rfl
  rw [conditionText, String.toList_append, hall]

theorem conditionTokens_middle (before : List Clause) (c : Clause) (after : List Clause) :
    conditionTokens (some (before ++ c :: after)) = .word "WHEN" :: (Clause.earlierTokens before ++
      (c.tokens ++ (after.map Clause.tokens).flatMap (.word "AND" :: ·))) := by
  rw [conditionTokens, Clause.allTokens, List.map_append, List.map_cons, intercalate_middle,
    List.flatMap_map]
  rfl

theorem spells_when (rest : List Char) : Spells " WHEN ".toList [.word "WHEN"] rest :=
  (Spells.word_blank (s := "WHEN ") rfl rfl (by decide) rest).blank_cons

/-- The clauses before another in front of it, of those after it and of other text. -/
theorem spells_earlier {before : List Clause} (hc : ∀ d ∈ before, d.IsProper isWritable)
    {c : Clause} {after : List Clause}
    (hempty : ∀ b d a, before = b ++ d :: a → ∀ p ∈ d.pattern?, p.source = "" →
      dropLine (Clause.laterText (a ++ c :: after) ++ rest) = none) :
    Spells (Clause.earlierText before) (Clause.earlierTokens before)
      (c.text.toList ++ (Clause.laterText after ++ rest)) := by
  induction before with
  | nil => exact Spells.nil _
  | cons d before ih =>
    have hand (rest : List Char) : Spells " AND ".toList [.word "AND"] rest :=
      (Spells.word_blank (s := "AND ") rfl rfl (by decide) rest).blank_cons
    have hbefore := ih (fun e he => hc e (List.mem_cons_of_mem d he))
      (fun b e a hs => hempty (d :: b) e a (by rw [hs, List.cons_append]))
    -- What follows the clause is the text of all the later ones, where a comment would be spoiled.
    have hfollows : " AND ".toList ++ Clause.earlierText before ++
        (c.text.toList ++ (Clause.laterText after ++ rest)) =
          Clause.laterText (before ++ c :: after) ++ rest := by
      rw [laterText_middle]
      simp only [List.append_assoc]
    have hclause : Spells d.text.toList d.tokens (" AND ".toList ++ Clause.earlierText before ++
        (c.text.toList ++ (Clause.laterText after ++ rest))) := by
      refine Clause.spells (hc d List.mem_cons_self) ?_ (stops_blank _)
      rw [hfollows]
      exact hempty [] d before rfl
    have htokens : Clause.earlierTokens (d :: before) =
        d.tokens ++ ([.word "AND"] ++ Clause.earlierTokens before) := by
      rw [Clause.earlierTokens, List.flatMap_cons, List.append_assoc]
      rfl
    rw [earlierText_cons, htokens]
    exact hclause.append ((hand _).append hbefore)

theorem spells_condition {condition : Option (List Clause)}
    (hp : ∀ clauses ∈ condition, clauses ≠ [] ∧ ∀ c ∈ clauses, c.IsProper isWritable)
    (hempty : ∀ clauses ∈ condition, ∀ before c after, clauses = before ++ c :: after →
      ∀ p ∈ c.pattern?, p.source = "" → dropLine (Clause.laterText after ++ rest) = none)
    (h : Stops rest) :
    Spells (conditionText condition).toList (conditionTokens condition) rest := by
  cases condition with
  | none => exact Spells.nil rest
  | some clauses =>
    obtain ⟨hne, hproper⟩ := hp clauses rfl
    obtain ⟨before, c, rfl⟩ := (List.eq_nil_or_concat' clauses).resolve_left hne
    have hbefore : Spells (Clause.earlierText before) (Clause.earlierTokens before)
        (c.text.toList ++ (Clause.laterText [] ++ rest)) := by
      apply spells_earlier
      · exact fun d hd => hproper d (List.mem_append_left _ hd)
      · intro b d a hs
        exact hempty _ rfl b d (a ++ [c]) (by rw [hs, List.append_assoc, List.cons_append])
    have hclause := Clause.spells (hproper c (List.mem_append_right _ List.mem_cons_self))
      (hempty _ rfl before c [] rfl) h
    have htext := conditionText_middle before c []
    have htokens := conditionTokens_middle before c []
    simp only [Clause.laterText, List.map_nil, List.flatMap_nil, List.append_nil] at htext htokens
    rw [htext, htokens]
    exact (spells_when _).append (hbefore.append hclause)

theorem spells_tail {rule : Rule} (hp : ∀ a ∈ rule.actions, a.IsProper isWritable)
    (ho : rule.IsOrdinary) (h : Stops rest) :
    Spells rule.tailText
      (.word "THEN" :: [.symbol .comma].intercalate (rule.actions.map Action.tokens)) rest := by
  have haction (a : Action) (ha : a ∈ rule.actions) (rest : List Char) (hrest : Stops rest) :
      Spells a.text.toList a.tokens rest :=
    Action.spells (hp a ha) (ho.actions a ha) hrest
  have hactions := spells_joinWith spells_comma stops_comma haction h
  have hthen {rest : List Char} (hrest : Stops rest) : Spells " THEN".toList [.word "THEN"] rest :=
    (Spells.word (w := "THEN") rfl (by decide) hrest).blank_cons
  unfold tailText actionsText
  cases hactions' : rule.actions with
  | nil => exact hthen h
  | cons a actions =>
    rw [hactions'] at hactions
    simp only [List.isEmpty_cons, Bool.false_eq_true, ↓reduceIte, String.toList_append]
    exact (hthen (stops_blank _)).append hactions.blank_cons

theorem stops_afterHead (rule : Rule) (rest : List Char) :
    Stops ((conditionText rule.condition).toList ++ rule.tailText ++ rest) := by
  cases rule.condition with
  | none => exact stops_blank _
  | some clauses =>
    have htext : (conditionText (some clauses)).toList =
        ' ' :: ("WHEN ".toList ++ (Clause.allText clauses).toList) := by
      simp [conditionText]
    rw [htext]
    exact stops_blank _

/-- After an empty pattern, a shielded rule spoils its line. -/
theorem IsShielded.dropLine_eq_none {rule : Rule} (h : rule.IsShielded)
    (hp : rule.IsProper isWritable) (rest : List Char) :
    ∀ clauses ∈ rule.condition, ∀ before c after, clauses = before ++ c :: after →
      ∀ p ∈ c.pattern?, p.source = "" → dropLine (Clause.laterText after ++ rest) = none := by
  rintro clauses hclauses before c after rfl p hpattern hempty
  refine Clause.dropLine_laterText (fun d hd => (hp.condition _ hclauses).2 d ?_)
    (h _ p _ (patterns_middle hclauses hpattern) hempty) rest
  exact List.mem_append_right before (List.mem_cons_of_mem c hd)

/-- A rule in front of other text. -/
theorem spells {rule : Rule} (hp : rule.IsProper isWritable) (ho : rule.IsOrdinary)
    (hs : rule.IsShielded) (h : Stops rest) :
    Spells rule.text.toList rule.tokens rest := by
  have hhead := spells_head ho (stops_afterHead rule rest)
  have hcondition := spells_condition hp.condition
    (hs.dropLine_eq_none hp (rule.tailText ++ rest)) (stops_blank _)
  have htail := spells_tail hp.actions ho h
  have htokens : rule.tokens =
      .word "IF" :: ([.symbol .pipe].intercalate (rule.events.map fun e => [.word e.tag]) ++
        [entityToken rule.entity]) ++ (conditionTokens rule.condition ++
          (.word "THEN" :: [.symbol .comma].intercalate (rule.actions.map Action.tokens))) := by
    simp [tokens, body]
  rw [text_eq, htokens]
  exact hhead.append (hcondition.append htail)

/-- The lines after another. -/
def laterLines (rules : List Rule) : List Char := rules.flatMap fun r => '\n' :: r.text.toList

theorem joinLines_middle (before : List Rule) (rule : Rule) (after : List Rule) :
    (joinWith "\n" ((before ++ rule :: after).map text)).toList =
      before.flatMap (fun r => r.text.toList ++ ['\n']) ++
        (rule.text.toList ++ laterLines after) := by
  rw [joinWith, String.toList_intercalate, List.map_append, List.map_append, List.map_cons,
    List.map_cons, intercalate_middle, List.map_map, List.map_map, List.flatMap_map,
    List.flatMap_map]
  rfl

theorem spells_earlierLines {rules : List Rule} (hp : ∀ r ∈ rules, r.IsProper isWritable)
    (ho : ∀ r ∈ rules, r.IsOrdinary) (hs : ∀ r ∈ rules, r.IsShielded) (rest : List Char) :
    Spells (rules.flatMap fun r => r.text.toList ++ ['\n']) (rules.flatMap tokens) rest := by
  induction rules with
  | nil => exact Spells.nil rest
  | cons rule rules ih =>
    have hrules := ih (fun r hr => hp r (List.mem_cons_of_mem rule hr))
      (fun r hr => ho r (List.mem_cons_of_mem rule hr))
      (fun r hr => hs r (List.mem_cons_of_mem rule hr))
    have hline (more : List Char) : Spells (rule.text.toList ++ ['\n']) rule.tokens more := by
      rw [← List.append_nil rule.tokens]
      exact (spells (hp rule List.mem_cons_self) (ho rule List.mem_cons_self)
        (hs rule List.mem_cons_self) (stops_cons _ rfl)).append (Spells.blank (c := '\n') rfl more)
    rw [List.flatMap_cons, List.flatMap_cons]
    exact (hline _).append hrules

theorem spells_joinLines {rules : List Rule} (hp : ∀ r ∈ rules, r.IsProper isWritable)
    (ho : ∀ r ∈ rules, r.IsOrdinary) (hs : ∀ r ∈ rules, r.IsShielded) :
    Spells (joinWith "\n" (rules.map text)).toList (rules.flatMap tokens) [] := by
  rcases List.eq_nil_or_concat' rules with rfl | ⟨before, rule, rfl⟩
  · exact Spells.nil []
  · rw [List.forall_mem_append, List.forall_mem_singleton] at hp ho hs
    rw [joinLines_middle, List.flatMap_append]
    have hlast : Spells (rule.text.toList ++ laterLines []) ([rule].flatMap tokens) [] := by
      simpa [laterLines] using spells hp.2 ho.2 hs.2 stops_nil
    exact (spells_earlierLines hp.1 ho.1 hs.1 _).append hlast

end Rule

end

end Bylaw
