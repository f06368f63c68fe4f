import Bylaw.Proofs.Rule.Expression
import Bylaw.Rule.Source

/-! Reading the canonical tokens of clauses, actions and rules. Main statement: a rule is what is
read of its own tokens. -/

namespace Bylaw.Rule

open Token (isWritable)

variable {rest : List Token}

theorem ofSource_source (p : Pattern) : Pattern.ofSource p.source = .ok p := by
  unfold Pattern.ofSource
  split
  · exact congrArg Except.ok (Pattern.ext_source rfl)
  · rename_i fault h
    rw [p.reads] at h
    cases h

theorem noOffset_word (w : String) (ts : List Token) : NoOffset (.word w :: ts) := by
  intro s n more h
  cases h

theorem noOffset_comparator (op : Comparator) (ts : List Token) :
    NoOffset (.symbol op.symbol :: ts) := by
  intro s n more h
  have hs : op.symbol = s := by simpa using (List.cons.inj h).1
  subst hs
  cases op <;> exact ⟨by decide, by decide⟩

theorem comparator?_symbol (op : Comparator) : comparator? op.symbol = some op := by
  cases op <;> rfl

theorem operandAt_field {path : FieldPath} (hp : path.IsOperand) (hrest : NoOffset rest) :
    operandAt (.word path.text :: rest) = .ok (.field path, rest) :=
  operandAt_tokens (x := .field path) hp hrest

/-- A field and its test: what stands between them says whether the test is negated. -/
theorem clauseAt_field {path : FieldPath} (hp : path.IsOperand) (negated : Bool) {w : String}
    (hw : isTest w = true) :
    clauseAt (.word path.text :: (Clause.notTokens negated ++ .word w :: rest)) =
      fieldTest path negated w rest := by
  have hnot : w ≠ "NOT" := by
    rintro rfl
    exact absurd hw (by decide)
  cases negated with
  | true =>
    rw [clauseAt, Clause.notTokens, if_pos rfl, List.singleton_append,
      operandAt_field hp (noOffset_word _ _)]
    simp [afterKeyword?, hw]
  | false =>
    rw [clauseAt, Clause.notTokens, if_neg (by decide), List.nil_append,
      operandAt_field hp (noOffset_word _ _)]
    simp [afterKeyword?, hnot, hw]

theorem clauseAt_tokens {c : Clause} (hc : c.IsProper isWritable) (hrest : NoOffset rest) :
    clauseAt (c.tokens ++ rest) = .ok (c, rest) := by
  cases c with
  | compare left op right =>
    have htokens : (Clause.compare left op right).tokens ++ rest =
        left.tokens ++ .symbol op.symbol :: (right.tokens ++ rest) := by
      simp [Clause.tokens]
    rw [htokens, clauseAt, operandAt_tokens hc.1 (noOffset_comparator op _)]
    simp [comparator?_symbol, operandAt_tokens hc.2 hrest]
  | present field negated =>
    have htokens : (Clause.present field negated).tokens ++ rest =
        .word field.text :: (Clause.notTokens negated ++ .word "EXISTS" :: rest) := by
      simp [Clause.tokens]
    rw [htokens, clauseAt_field hc negated rfl]
    rfl
  | fits field p negated =>
    have htokens : (Clause.fits field p negated).tokens ++ rest =
        .word field.text :: (Clause.notTokens negated ++ .word "MATCHES" ::
          .pattern p.source :: rest) := by
      simp [Clause.tokens]
    have hpattern : patternAt (.word "MATCHES") (.pattern p.source :: rest) = .ok (p, rest) := by
      simp [patternAt, afterSymbol?, ofSource_source]
      rfl
    rw [htokens, clauseAt_field hc.1 negated rfl, fieldTest, if_neg (by decide), if_pos rfl,
      hpattern]
    rfl
  | contains field needle negated =>
    have htokens : (Clause.contains field needle negated).tokens ++ rest =
        .word field.text :: (Clause.notTokens negated ++ .word "CONTAINS" ::
          (needle.tokens ++ rest)) := by
      simp [Clause.tokens]
    rw [htokens, clauseAt_field hc.1 negated rfl, fieldTest, if_neg (by decide),
      if_neg (by decide), operandAt_tokens hc.2 hrest]
    rfl

/-- Further clauses, each after the word `AND`, and what is read after them. -/
theorem moreClauses_tokens {clauses : List Clause} (hc : ∀ c ∈ clauses, c.IsProper isWritable)
    (hrest : NoOffset rest) :
    moreClauses ((clauses.map Clause.tokens).flatMap (.word "AND" :: ·) ++ rest) =
      (moreClauses rest).map fun (others, rest) => (clauses ++ others, rest) := by
  induction clauses with
  | nil =>
    simp only [List.map_nil, List.flatMap_nil, List.nil_append]
    cases moreClauses rest <;> rfl
  | cons c clauses ih =>
    have hothers := ih fun d hd => hc d (List.mem_cons_of_mem c hd)
    have htokens : ((c :: clauses).map Clause.tokens).flatMap (.word "AND" :: ·) ++ rest =
        .word "AND" :: (c.tokens ++
          ((clauses.map Clause.tokens).flatMap (.word "AND" :: ·) ++ rest)) := by
      simp
    have hnext : NoOffset ((clauses.map Clause.tokens).flatMap (.word "AND" :: ·) ++ rest) := by
      cases clauses with
      | nil => exact hrest
      | cons d clauses => exact noOffset_word _ _
    rw [htokens, moreClauses, afterKeyword?, if_pos rfl]
    simp only [clauseAt_tokens (hc c List.mem_cons_self) hnext]
    rw [dif_pos (by simp only [List.length_cons, List.length_append]; omega), hothers]
    cases moreClauses rest <;> rfl

theorem moreClauses_then (ts : List Token) :
    moreClauses (.word "THEN" :: ts) = .ok ([], .word "THEN" :: ts) := by
  rw [moreClauses]
  simp [afterKeyword?]

/-- A condition is what is read of its tokens. -/
theorem conditionAt_tokens {clauses : List Clause} (hne : clauses ≠ [])
    (hc : ∀ c ∈ clauses, c.IsProper isWritable) (ts : List Token) :
    conditionAt (Clause.allTokens clauses ++ .word "THEN" :: ts) =
      .ok (clauses, .word "THEN" :: ts) := by
  cases clauses with
  | nil => exact absurd rfl hne
  | cons c clauses =>
    have hothers : moreClauses ((clauses.map Clause.tokens).flatMap (.word "AND" :: ·) ++
        .word "THEN" :: ts) = .ok (clauses, .word "THEN" :: ts) := by
      rw [moreClauses_tokens (fun d hd => hc d (List.mem_cons_of_mem c hd))
        (noOffset_word "THEN" ts), moreClauses_then]
      simp [Except.map]
    have hnext : NoOffset ((clauses.map Clause.tokens).flatMap (.word "AND" :: ·) ++
        .word "THEN" :: ts) := by
      cases clauses with
      | nil => exact noOffset_word _ _
      | cons d clauses => exact noOffset_word _ _
    rw [Clause.allTokens, List.map_cons, intercalate_cons, List.append_assoc, conditionAt,
      clauseAt_tokens (hc c List.mem_cons_self) hnext, ok_bind]
    simp only [hothers, ok_bind]
    rfl

/-- Further events, each after a bar, in front of tokens that are no events. -/
theorem moreEvents_append {events : List Event} {ts : List Token}
    (h : moreEvents ts = .ok ([], ts)) :
    moreEvents ((events.map fun e => [Token.word e.tag]).flatMap (.symbol .pipe :: ·) ++ ts) =
      .ok (events, ts) := by
  induction events with
  | nil => exact h
  | cons e events ih =>
    have htokens : ((e :: events).map fun e => [Token.word e.tag]).flatMap (.symbol .pipe :: ·) ++
        ts = .symbol .pipe :: .word e.tag ::
          ((events.map fun e => [Token.word e.tag]).flatMap (.symbol .pipe :: ·) ++ ts) := by
      simp
    rw [htokens, moreEvents, if_pos (.inl rfl)]
    simp only [eventAt, Event.ofTag?_tag, Reading.ofHead, ih]
    rfl

theorem moreEvents_of_ne {t : Token} {ts : List Token} (hp : t ≠ .symbol .pipe)
    (hc : t ≠ .symbol .comma) (htag : tagThenEntity (t :: ts) = false) :
    moreEvents (t :: ts) = .ok ([], t :: ts) := by
  rw [moreEvents]
  simp [hp, hc, htag]

theorem literals_comma {ts more : List Token} {v : Json}
    (h : ∃ hlt, literal? ts = some ⟨v, .symbol .comma :: more, hlt⟩) :
    literals ts = (literals more).map fun (values, rest) => (v :: values, rest) := by
  obtain ⟨hlt, h⟩ := h
  rw [literals, h]
  simp only
  split
  · rename_i after hcomma
    obtain rfl : more = after := by simpa [afterSymbol?] using hcomma
    rfl
  · rename_i hcomma
    simp [afterSymbol?] at hcomma

theorem literals_closeParen {ts more : List Token} {v : Json}
    (h : ∃ hlt, literal? ts = some ⟨v, .symbol .closeParen :: more, hlt⟩) :
    literals ts = .ok ([v], more) := by
  obtain ⟨hlt, h⟩ := h
  rw [literals, h]
  simp only
  split
  · rename_i after hcomma
    simp [afterSymbol?] at hcomma
  · simp [expectSymbol, afterSymbol?]
    rfl

/-- The literals in the parentheses of an action. -/
theorem literals_tokens {args : List Json} (hne : args ≠ [])
    (h : ∀ v ∈ args, v.IsLiteral isWritable) :
    literals ([.symbol .comma].intercalate (args.map Json.tokens) ++
      .symbol .closeParen :: rest) = .ok (args, rest) := by
  induction args with
  | nil => exact absurd rfl hne
  | cons v args ih =>
    cases args with
    | nil =>
      rw [List.map_cons, List.map_nil, List.intercalate_singleton]
      exact literals_closeParen (literal?_tokens (h v List.mem_cons_self))
    | cons w args =>
      have hothers := ih (List.cons_ne_nil w args) fun u hu => h u (List.mem_cons_of_mem v hu)
      have htokens : [.symbol .comma].intercalate ((v :: w :: args).map Json.tokens) ++
          .symbol .closeParen :: rest = v.tokens ++ .symbol .comma ::
            ([.symbol .comma].intercalate ((w :: args).map Json.tokens) ++
              .symbol .closeParen :: rest) := by
        rw [List.map_cons, List.map_cons, List.intercalate_cons_cons]
        simp
      rw [htokens, literals_comma (literal?_tokens (h v List.mem_cons_self)), hothers]
      rfl

theorem eq_of_afterSymbol? {s : Symbol} {ts more : List Token} (h : afterSymbol? s ts = some more) :
    ts = .symbol s :: more := by
  unfold afterSymbol? at h
  split at h
  · split at h
    · rename_i hs
      rw [hs, Option.some.inj h]
    · cases h
  · cases h

/-- Literals do not begin with a closing parenthesis. -/
theorem afterSymbol?_of_literals {ts : List Token} {r : List Json × List Token}
    (h : literals ts = .ok r) : afterSymbol? .closeParen ts = none := by
  cases hclose : afterSymbol? .closeParen ts with
  | none => rfl
  | some more =>
    rw [eq_of_afterSymbol? hclose, literals] at h
    cases h

theorem handlerName?_identifier {handler : String} (h : isIdentifier handler = true) :
    handlerName? handler = some handler := by
  have hpoint : '.' ∉ handler.toList := fun hp =>
    (isWordPart_of_isIdentifier h '.' hp).2 rfl
  unfold handlerName?
  split
  · rename_i rest heq
    exact absurd (by rw [heq]; simp) hpoint
  · rw [if_pos h]

theorem handlerAt_identifier {handler : String} (h : isIdentifier handler = true)
    (hk : isKeyword handler = false) : handlerAt (.word handler :: rest) = .ok (handler, rest) := by
  simp [handlerAt, hk, handlerName?_identifier h]

theorem actionAt_tokens {a : Action} (ha : a.IsProper isWritable) (ho : a.IsOrdinary)
    (hjson : a.ReadsBack)
    (hrest : EndsExpr rest) : actionAt (a.tokens ++ rest) = .ok (a, rest) := by
  cases a with
  | update field value =>
    obtain ⟨hlt, hvalue⟩ := (rereads value ha.2 ho).sum rest hrest
    show updateAction (.word field.text :: .symbol .equal :: (value.tokens ++ rest)) = _
    simp [updateAction, ha.1.notKeyword, ha.1.reads, expectSymbol, afterSymbol?, hvalue]
  | notify message =>
    show notifyAction (.str message.source :: rest) = _
    have hread : Template.read message.source = .ok message := ha
    simp [notifyAction, hread]
  | delete => rfl
  | create kind payload =>
    show createAction (.word kind :: .word "WITH" :: .block payload.compact :: rest) = _
    have hread : Json.read payload.compact = .ok payload.source := hjson
    simp [createAction, nameAt, ho.2, expectKeyword, afterKeyword?, hread, ha.1, ha.2]
    rfl
  | send subject handler =>
    show sendAction (.word subject :: .word "TO" :: .word handler :: rest) = _
    simp [sendAction, nameAt, ho.1.2, expectKeyword, afterKeyword?, handlerAt_identifier ha ho.2]
  | invoke handler args =>
    have htokens : (Action.invoke handler args).tokens ++ rest =
        .word "INVOKE" :: .word handler :: .symbol .openParen ::
          ([.symbol .comma].intercalate (args.map Json.tokens) ++ .symbol .closeParen :: rest) := by
      simp [Action.tokens]
    rw [htokens]
    show invokeAction _ = _
    cases args with
    | nil =>
      simp [invokeAction, handlerAt_identifier ha.1 ho.1, afterSymbol?]
      rfl
    | cons v args =>
      have hargs : literals ([.symbol .comma].intercalate ((v :: args).map Json.tokens) ++
          .symbol .closeParen :: rest) = .ok (v :: args, rest) :=
        literals_tokens (List.cons_ne_nil v args) ha.2
      -- The parenthesis does not close at once, so the literals are read.
      have hclose := afterSymbol?_of_literals hargs
      simp only [invokeAction, handlerAt_identifier ha.1 ho.1, ok_bind]
      rw [afterSymbol?, if_pos rfl]
      simp only [hclose, hargs]
      rfl
  | stop => rfl

theorem actionsAt_last {ts : List Token} {a : Action} (hne : ts ≠ [])
    (h : actionAt ts = .ok (a, [])) : actionsAt ts = .ok [a] := by
  cases ts with
  | nil => exact absurd rfl hne
  | cons t ts =>
    rw [actionsAt, h]
    simp [afterSymbol?]

theorem actionsAt_comma {ts more : List Token} {a : Action} (hlt : more.length + 1 < ts.length)
    (hne : more ≠ []) (h : actionAt ts = .ok (a, .symbol .comma :: more)) :
    actionsAt ts = (actionsAt more).map (a :: ·) := by
  cases ts with
  | nil => cases hlt
  | cons t ts =>
    have hempty : more.isEmpty = false := by simpa using hne
    rw [actionsAt, h]
    simp only [List.length_cons] at hlt ⊢
    rw [dif_pos hlt, afterSymbol?, if_pos rfl]
    simp only [hempty]
    rw [if_neg (by decide), dif_pos (by omega)]

theorem actionsAt_comma_nil {ts : List Token} {a : Action}
    (hlt : [Token.symbol .comma].length < ts.length)
    (h : actionAt ts = .ok (a, [.symbol .comma])) (actions : List Action) :
    actionsAt ts ≠ .ok actions := by
  cases ts with
  | nil => cases hlt
  | cons t ts =>
    rw [actionsAt, h]
    simp only
    rw [dif_pos hlt, afterSymbol?, if_pos rfl]
    intro h
    cases h

theorem tokens_ne_nil (a : Action) : a.tokens ≠ [] := by
  cases a <;> simp [Action.tokens]

theorem actionsAt_tokens {actions : List Action} (ha : ∀ a ∈ actions, a.IsProper isWritable)
    (ho : ∀ a ∈ actions, a.IsOrdinary)
    (hjson : ∀ a ∈ actions, a.ReadsBack) :
    actionsAt ([.symbol .comma].intercalate (actions.map Action.tokens)) = .ok actions := by
  induction actions with
  | nil =>
    rw [List.map_nil, List.intercalate_nil, actionsAt]
  | cons a actions ih =>
    have hothers := ih (fun b hb => ha b (List.mem_cons_of_mem a hb))
      (fun b hb => ho b (List.mem_cons_of_mem a hb))
      (fun b hb => hjson b (List.mem_cons_of_mem a hb))
    have hfirst {rest : List Token} (hrest : EndsExpr rest) :
        actionAt (a.tokens ++ rest) = .ok (a, rest) :=
      actionAt_tokens (ha a List.mem_cons_self) (ho a List.mem_cons_self)
        (hjson a List.mem_cons_self) hrest
    -- The last action is followed by nothing, any other by a comma.
    cases actions with
    | nil =>
      have hlast := hfirst endsExpr_nil
      rw [List.append_nil] at hlast
      rw [List.map_cons, List.map_nil, List.intercalate_singleton]
      exact actionsAt_last (tokens_ne_nil a) hlast
    | cons b actions =>
      have htokens : [.symbol .comma].intercalate ((a :: b :: actions).map Action.tokens) =
          a.tokens ++ .symbol .comma ::
            [.symbol .comma].intercalate ((b :: actions).map Action.tokens) := by
        rw [List.map_cons, List.map_cons, List.intercalate_cons_cons]
        simp
      have hmore : [.symbol .comma].intercalate ((b :: actions).map Action.tokens) ≠ [] := by
        rw [List.map_cons, intercalate_cons]
        simp [tokens_ne_nil]
      have hlength : 0 < a.tokens.length := List.length_pos_of_ne_nil (tokens_ne_nil a)
      rw [htokens, actionsAt_comma ?_ hmore (hfirst (endsExpr_cons _ rfl rfl (by decide))), hothers]
      · rfl
      · simp only [List.length_append, List.length_cons]
        omega

/-- What may follow an entity. -/
theorem tagThenEntity_entity (entity : String) {w : String} (hw : isKeyword w = true)
    (ts : List Token) : tagThenEntity (entityToken entity :: .word w :: ts) = false := by
  unfold entityToken
  split
  · simp [tagThenEntity, hw]
  · rfl

theorem entityAt_entityToken {entity : String} (hne : entity ≠ "")
    (hk : isKeyword entity = false) :
    entityAt (entityToken entity :: rest) = .ok (entity, rest) := by
  unfold entityToken
  split
  · rename_i hi
    have hpoint : '.' ∉ entity.toList := fun hp => (isWordPart_of_isIdentifier hi '.' hp).2 rfl
    simp [entityAt, hk, hpoint]
  · simp [entityAt, hne]

theorem events_tokens {events : List Event} (hne : events ≠ []) {ts : List Token}
    (h : moreEvents ts = .ok ([], ts)) :
    ∃ first others, events = first :: others ∧
      [.symbol .pipe].intercalate (events.map fun e => [Token.word e.tag]) ++ ts =
        .word first.tag ::
          ((others.map fun e => [Token.word e.tag]).flatMap (.symbol .pipe :: ·) ++ ts) ∧
      moreEvents ((others.map fun e => [Token.word e.tag]).flatMap (.symbol .pipe :: ·) ++ ts) =
        .ok (others, ts) := by
  obtain ⟨first, others, rfl⟩ := List.exists_cons_of_ne_nil hne
  refine ⟨first, others, rfl, ?_, moreEvents_append h⟩
  rw [List.map_cons, intercalate_cons]
  rfl

theorem moreEvents_entity (entity : String) {w : String} (hw : isKeyword w = true)
    (ts : List Token) :
    moreEvents (entityToken entity :: .word w :: ts) =
      .ok ([], entityToken entity :: .word w :: ts) := by
  refine moreEvents_of_ne ?_ ?_ (tagThenEntity_entity entity hw ts)
  · unfold entityToken
    split <;> simp
  · unfold entityToken
    split <;> simp

/-- What is read of a statement whose events and entity are those of a rule. -/
theorem statement_head {rule : Rule} (hp : rule.IsProper isWritable)
    (hk : isKeyword rule.entity = false) (line : Nat) {w : String} (hw : isKeyword w = true)
    (ts : List Token) :
    statement line (.word "IF" ::
        ([.symbol .pipe].intercalate (rule.events.map fun e => [.word e.tag]) ++
          entityToken rule.entity :: .word w :: ts)) =
      (do
        let (condition, rest) ← match afterKeyword? "WHEN" (.word w :: ts) with
          | some rest => do
            let (clauses, rest) ← conditionAt rest
            pure (some clauses, rest)
          | none => pure (none, .word w :: ts)
        match afterKeyword? "THEN" rest with
        | none => rejectExpected "WHEN or THEN" rest
        | some rest =>
          let actions ← actionsAt rest
          pure ⟨rule.entity, rule.events, condition, actions, line⟩) := by
  obtain ⟨first, others, hevents, htokens, hmore⟩ :=
    events_tokens hp.events (moreEvents_entity rule.entity hw ts)
  have hsorted : Event.sorted (first :: others) = rule.events := by
    rw [← hevents, hp.sorted]
  rw [htokens, statement]
  simp only [expectKeyword, afterKeyword?, if_true, ok_bind, eventAt, Event.ofTag?_tag,
    Reading.ofHead, hmore, entityAt_entityToken hp.entity hk]
  rewrite [hsorted]
  rfl

theorem statement_actions {rule : Rule} (hp : rule.IsProper isWritable)
    (hk : isKeyword rule.entity = false) (line : Nat) (ts : List Token) :
    statement line (.word "IF" ::
        ([.symbol .pipe].intercalate (rule.events.map fun e => [.word e.tag]) ++
          entityToken rule.entity :: (conditionTokens rule.condition ++ .word "THEN" :: ts))) =
      (actionsAt ts).map fun actions => { rule with actions, line } := by
  cases hcondition : rule.condition with
  | none =>
    show statement line (.word "IF" :: (_ ++ entityToken rule.entity :: .word "THEN" :: ts)) = _
    rw [statement_head hp hk line (by decide)]
    cases hactions : actionsAt ts <;> simp [afterKeyword?, hactions, Except.map]
  | some clauses =>
    obtain ⟨hne, hclauses⟩ := hp.condition clauses hcondition
    show statement line (.word "IF" :: (_ ++ entityToken rule.entity :: .word "WHEN" ::
      (Clause.allTokens clauses ++ .word "THEN" :: ts))) = _
    rw [statement_head hp hk line (by decide)]
    cases hactions : actionsAt ts <;>
      simp [afterKeyword?, conditionAt_tokens hne hclauses, hactions, Except.map]

theorem statement_tokens {rule : Rule} (hp : rule.IsProper isWritable) (ho : rule.IsOrdinary)
    (hjson : ∀ a ∈ rule.actions, a.ReadsBack) (line : Nat) :
    statement line rule.tokens = .ok { rule with line } := by
  rw [tokens, body, statement_actions hp ho.entity,
    actionsAt_tokens hp.actions ho.actions hjson]
  rfl

end Bylaw.Rule
