import Bylaw.Proofs.Rule.Rereading

/-! The grammar of rules: relations between tokens, what is read of the first of them, and those
that are left. A derivation says what was found, but not why a reader stopped there. What is left is
the end of the tokens. -/

namespace Bylaw.Rule

variable {ts rest : List Token}

theorem afterKeyword?_eq {keyword : String} (h : afterKeyword? keyword ts = some rest) :
    ts = .word keyword :: rest := by
  unfold afterKeyword? at h
  split at h
  · split at h
    · rename_i hw
      rw [hw, Option.some.inj h]
    · cases h
  · cases h

theorem expectKeyword_eq {keyword : String} (h : expectKeyword keyword ts = .ok rest) :
    ts = .word keyword :: rest := by
  unfold expectKeyword at h
  split at h
  · rename_i more hmore
    rw [← Except.ok.inj h]
    exact afterKeyword?_eq hmore
  · cases h

theorem expectSymbol_eq {s : Symbol} {what : String} (h : expectSymbol s what ts = .ok rest) :
    ts = .symbol s :: rest := by
  unfold expectSymbol at h
  split at h
  · rename_i more hmore
    rw [← Except.ok.inj h]
    exact eq_of_afterSymbol? hmore
  · cases h

section Terms

/-- A literal. -/
inductive ReadsLiteral : List Token → Json → List Token → Prop
  | number (n : Number) (rest : List Token) : ReadsLiteral (.number n :: rest) (.num n) rest
  | str (s : String) (rest : List Token) : ReadsLiteral (.str s :: rest) (.str s) rest
  | word {w : String} {v : Json} (hv : literalWord? w = some v) (rest : List Token) :
    ReadsLiteral (.word w :: rest) v rest
  | negative (n : Number) (rest : List Token) :
    ReadsLiteral (.symbol .minus :: .number n :: rest) (.num (negate n)) rest

/-- The days after today's date: a sign and a number of days, or nothing. -/
inductive ReadsDays : List Token → Int → List Token → Prop
  | later {n : Number} {days : Int} (hn : n.int64? = some days) (rest : List Token) :
    ReadsDays (.symbol .plus :: .number n :: rest) days rest
  | earlier {n : Number} {days : Int} (hn : n.int64? = some days) (rest : List Token) :
    ReadsDays (.symbol .minus :: .number n :: rest) (-days) rest
  | none (ts : List Token) : ReadsDays ts 0 ts

/-- A word that is read as a field. -/
structure NamesField (w : String) (path : FieldPath) : Prop where
  notLiteral : literalWord? w = none
  notToday : isToday w = false
  notKeyword : isKeyword w = false
  reads : FieldPath.read? w.toList = some path

/-- One side of a comparison. -/
inductive ReadsOperand : List Token → Operand → List Token → Prop
  | literal {ts rest : List Token} {v : Json} (h : ReadsLiteral ts v rest) :
    ReadsOperand ts (.literal v) rest
  | today {w : String} {ts rest : List Token} {offset : Int} (hw : isToday w = true)
    (h : ReadsDays ts offset rest) : ReadsOperand (.word w :: ts) (.today offset) rest
  | field {w : String} {path : FieldPath} (h : NamesField w path) (rest : List Token) :
    ReadsOperand (.word w :: rest) (.field path) rest

/-- The parts of expressions, each with the trees that it is read as. -/
inductive Phrase where
  | sum (e : Expr)
  | product (e : Expr)
  | factor (e : Expr)
  | arguments (args : List Expr)

/-- A part of an expression. Sums and products group to the left. -/
inductive ReadsPhrase : List Token → Phrase → List Token → Prop
  | sum {ts rest : List Token} {e : Expr} (h : ReadsPhrase ts (.product e) rest) :
    ReadsPhrase ts (.sum e) rest
  | sumTail {t : Token} {op : ArithOp} {ts mid rest : List Token} {left right : Expr}
    (hl : ReadsPhrase ts (.sum left) (t :: mid)) (hop : sumOp? t = some op)
    (hr : ReadsPhrase mid (.product right) rest) :
    ReadsPhrase ts (.sum (.binary op left right)) rest
  | product {ts rest : List Token} {e : Expr} (h : ReadsPhrase ts (.factor e) rest) :
    ReadsPhrase ts (.product e) rest
  | productTail {t : Token} {op : ArithOp} {ts mid rest : List Token} {left right : Expr}
    (hl : ReadsPhrase ts (.product left) (t :: mid)) (hop : productOp? t = some op)
    (hr : ReadsPhrase mid (.factor right) rest) :
    ReadsPhrase ts (.product (.binary op left right)) rest
  | literal {ts rest : List Token} {v : Json} (h : ReadsLiteral ts v rest)
    (hv : v.isString = false) : ReadsPhrase ts (.factor (.literal v)) rest
  | template {s : String} {t : Template} (ht : Template.read s = .ok t) (rest : List Token) :
    ReadsPhrase (.str s :: rest) (.factor (.template t)) rest
  | today {w : String} {ts rest : List Token} {offset : Int} (hw : isToday w = true)
    (h : ReadsDays ts offset rest) : ReadsPhrase (.word w :: ts) (.factor (.today offset)) rest
  | field {w : String} {path : FieldPath} (h : NamesField w path) (rest : List Token) :
    ReadsPhrase (.word w :: rest) (.factor (.field path)) rest
  | minus {ts rest : List Token} {e : Expr} (h : ReadsPhrase ts (.factor e) rest) :
    ReadsPhrase (.symbol .minus :: ts) (.factor (.binary .sub (.literal (.ofNat 0)) e)) rest
  | enclosed {ts rest : List Token} {e : Expr}
    (h : ReadsPhrase ts (.sum e) (.symbol .closeParen :: rest)) :
    ReadsPhrase (.symbol .openParen :: ts) (.factor e) rest
  | callEmpty {w handler : String} (hk : isKeyword w = false) (hh : handlerName? w = some handler)
    (rest : List Token) :
    ReadsPhrase (.word w :: .symbol .openParen :: .symbol .closeParen :: rest)
      (.factor (.call handler [])) rest
  | call {w handler : String} {ts rest : List Token} {args : List Expr} (hk : isKeyword w = false)
    (hh : handlerName? w = some handler) (h : ReadsPhrase ts (.arguments args) rest) :
    ReadsPhrase (.word w :: .symbol .openParen :: ts) (.factor (.call handler args)) rest
  | lastArgument {ts rest : List Token} {e : Expr}
    (h : ReadsPhrase ts (.sum e) (.symbol .closeParen :: rest)) :
    ReadsPhrase ts (.arguments [e]) rest
  | argument {ts mid rest : List Token} {e : Expr} {args : List Expr}
    (h : ReadsPhrase ts (.sum e) (.symbol .comma :: mid))
    (hmore : ReadsPhrase mid (.arguments args) rest) : ReadsPhrase ts (.arguments (e :: args)) rest

theorem ReadsLiteral.suffix {v : Json} (h : ReadsLiteral ts v rest) : rest <:+ ts := by
  cases h with
  | negative n rest => exact List.suffix_append [.symbol .minus, .number n] rest
  | _ => exact List.suffix_cons _ _

theorem ReadsDays.suffix {offset : Int} (h : ReadsDays ts offset rest) : rest <:+ ts := by
  cases h with
  | none => exact List.suffix_rfl
  | later | earlier => exact List.suffix_append [_, _] rest

theorem ReadsOperand.suffix {x : Operand} (h : ReadsOperand ts x rest) : rest <:+ ts := by
  cases h with
  | literal h => exact h.suffix
  | today _ h => exact h.suffix.trans (List.suffix_cons _ _)
  | field => exact List.suffix_cons _ _

theorem ReadsPhrase.suffix {p : Phrase} (h : ReadsPhrase ts p rest) : rest <:+ ts := by
  induction h with
  | sum _ ih | product _ ih => exact ih
  | sumTail _ _ _ ihl ihr | productTail _ _ _ ihl ihr | argument _ _ ihl ihr =>
    exact (ihr.trans (List.suffix_cons _ _)).trans ihl
  | literal h => exact h.suffix
  | template | field => exact List.suffix_cons _ _
  | today _ h => exact h.suffix.trans (List.suffix_cons _ _)
  | minus _ ih => exact ih.trans (List.suffix_cons _ _)
  | enclosed _ ih => exact (List.suffix_cons _ _).trans (ih.trans (List.suffix_cons _ _))
  | callEmpty _ _ rest => exact List.suffix_append [_, _, _] rest
  | call _ _ _ ih => exact (ih.trans (List.suffix_cons _ _)).trans (List.suffix_cons _ _)
  | lastArgument _ ih => exact (List.suffix_cons _ _).trans ih

end Terms

section Conditions

/-- One term of a condition. -/
inductive ReadsClause : List Token → Clause → List Token → Prop
  | compare {s : Symbol} {op : Comparator} {ts mid rest : List Token} {left right : Operand}
    (hl : ReadsOperand ts left (.symbol s :: mid)) (hop : comparator? s = some op)
    (hr : ReadsOperand mid right rest) : ReadsClause ts (.compare left op right) rest
  | present {ts rest : List Token} {field : FieldPath} {negated : Bool}
    (hf : ReadsOperand ts (.field field) (Clause.notTokens negated ++ .word "EXISTS" :: rest)) :
    ReadsClause ts (.present field negated) rest
  | fits {ts mid rest : List Token} {field : FieldPath} {negated : Bool} {p : Pattern}
    (hf : ReadsOperand ts (.field field) (Clause.notTokens negated ++ .word "MATCHES" :: mid))
    (hp : patternAt (.word "MATCHES") mid = .ok (p, rest)) :
    ReadsClause ts (.fits field p negated) rest
  | contains {ts mid rest : List Token} {field : FieldPath} {negated : Bool} {needle : Operand}
    (hf : ReadsOperand ts (.field field) (Clause.notTokens negated ++ .word "CONTAINS" :: mid))
    (hn : ReadsOperand mid needle rest) : ReadsClause ts (.contains field needle negated) rest

/-- The terms of a condition after the first. -/
inductive ReadsClauses : List Token → List Clause → List Token → Prop
  | nil (ts : List Token) : ReadsClauses ts [] ts
  | cons {ts mid rest : List Token} {c : Clause} {clauses : List Clause}
    (hc : ReadsClause ts c mid) (hmore : ReadsClauses mid clauses rest) :
    ReadsClauses (.word "AND" :: ts) (c :: clauses) rest

/-- The condition of a rule, if it has one. -/
inductive ReadsCondition : List Token → Option (List Clause) → List Token → Prop
  | none (ts : List Token) : ReadsCondition ts none ts
  | some {ts mid rest : List Token} {c : Clause} {clauses : List Clause}
    (hc : ReadsClause ts c mid) (hmore : ReadsClauses mid clauses rest) :
    ReadsCondition (.word "WHEN" :: ts) (some (c :: clauses)) rest

theorem source_of_ofSource {source : String} {p : Pattern} (h : Pattern.ofSource source = .ok p) :
    p.source = source := by
  unfold Pattern.ofSource at h
  split at h
  · rw [← Except.ok.inj h]
  · cases h

/-- What is read of the source of a pattern, with what follows it. -/
theorem eq_of_ofSource {source : String} {us : List Token} {p : Pattern}
    (h : (match Pattern.ofSource source with
      | .ok p => pure (p, us)
      | .error fault => reject (.badPattern source fault) us) = Except.ok (p, rest)) :
    source = p.source ∧ us = rest := by
  split at h
  · rename_i q hq
    obtain ⟨rfl, rfl⟩ := Prod.mk.inj (Except.ok.inj h)
    exact ⟨(source_of_ofSource hq).symm, rfl⟩
  · cases h

/-- A pattern is read of a pattern token or a string, in parentheses or not. -/
theorem patternAt_cases {last : Token} {p : Pattern} (h : patternAt last ts = .ok (p, rest)) :
    ∃ t, (t = .pattern p.source ∨ t = .str p.source) ∧
      (ts = t :: rest ∨ ts = .symbol .openParen :: t :: .symbol .closeParen :: rest) := by
  unfold patternAt at h
  cases hopen : afterSymbol? .openParen ts with
  | some us =>
    rw [eq_of_afterSymbol? hopen]
    simp only [hopen] at h
    split at h
    case h_1 | h_2 =>
      simp only [pure_bind, if_true] at h
      obtain ⟨vs, hclose, h⟩ := bind_eq_ok.mp h
      obtain ⟨rfl, rfl⟩ := eq_of_ofSource h
      rw [expectSymbol_eq hclose]
      exact ⟨_, by simp, .inr rfl⟩
    case h_3 => cases h
  | none =>
    simp only [hopen] at h
    split at h
    case h_1 | h_2 =>
      obtain ⟨rfl, rfl⟩ := eq_of_ofSource h
      exact ⟨_, by simp, .inl rfl⟩
    case h_3 => cases h

theorem patternAt_suffix {last : Token} {p : Pattern} (h : patternAt last ts = .ok (p, rest)) :
    rest <:+ ts := by
  obtain ⟨t, -, rfl | rfl⟩ := patternAt_cases h
  · exact List.suffix_cons _ _
  · exact List.suffix_append [_, _, _] rest

/-- The test of a field stands after it and after the word `NOT`, if that is there. -/
theorem readsOperand_test {x : Operand} {w : String} {mid : List Token} {negated : Bool}
    (h : ReadsOperand ts x (Clause.notTokens negated ++ .word w :: mid)) : .word w :: mid <:+ ts :=
  (List.suffix_append _ _).trans h.suffix

theorem ReadsClause.suffix {c : Clause} (h : ReadsClause ts c rest) : rest <:+ ts := by
  cases h with
  | compare hl _ hr => exact (hr.suffix.trans (List.suffix_cons _ _)).trans hl.suffix
  | present hf => exact (List.suffix_cons _ _).trans (readsOperand_test hf)
  | fits hf hp =>
    exact (patternAt_suffix hp).trans ((List.suffix_cons _ _).trans (readsOperand_test hf))
  | contains hf hn => exact hn.suffix.trans ((List.suffix_cons _ _).trans (readsOperand_test hf))

theorem ReadsClauses.suffix {clauses : List Clause} (h : ReadsClauses ts clauses rest) :
    rest <:+ ts := by
  induction h with
  | nil => exact List.suffix_rfl
  | cons hc _ ih => exact (ih.trans hc.suffix).trans (List.suffix_cons _ _)

theorem ReadsCondition.suffix {condition : Option (List Clause)}
    (h : ReadsCondition ts condition rest) : rest <:+ ts := by
  cases h with
  | none => exact List.suffix_rfl
  | some hc hmore => exact (hmore.suffix.trans hc.suffix).trans (List.suffix_cons _ _)

end Conditions

section Actions

/-- The literals in the parentheses of an action, the opening one having been read. -/
inductive ReadsLiterals : List Token → List Json → List Token → Prop
  | last {ts rest : List Token} {v : Json} (h : ReadsLiteral ts v (.symbol .closeParen :: rest)) :
    ReadsLiterals ts [v] rest
  | cons {ts mid rest : List Token} {v : Json} {args : List Json}
    (h : ReadsLiteral ts v (.symbol .comma :: mid)) (hmore : ReadsLiterals mid args rest) :
    ReadsLiterals ts (v :: args) rest

/-- A handler. -/
inductive ReadsHandler : List Token → String → List Token → Prop
  | word {w handler : String} (hk : isKeyword w = false) (hh : handlerName? w = some handler)
    (rest : List Token) : ReadsHandler (.word w :: rest) handler rest

/-- A name: a word that is no keyword, or a string. -/
inductive ReadsName : List Token → String → List Token → Prop
  | word {w : String} (hk : isKeyword w = false) (rest : List Token) :
    ReadsName (.word w :: rest) w rest
  | str (s : String) (rest : List Token) : ReadsName (.str s :: rest) s rest

/-- What stands after the verb of an action, and the action. -/
inductive ReadsAction : List Token → Action → List Token → Prop
  | update {w : String} {path : FieldPath} {ts rest : List Token} {e : Expr}
    (hk : isKeyword w = false) (hp : FieldPath.read? w.toList = some path)
    (he : ReadsPhrase ts (.sum e) rest) :
    ReadsAction (.word "UPDATE" :: .word w :: .symbol .equal :: ts) (.update path e) rest
  | notify {s : String} {t : Template} (ht : Template.read s = .ok t) (rest : List Token) :
    ReadsAction (.word "NOTIFY" :: .str s :: rest) (.notify t) rest
  | delete (rest : List Token) : ReadsAction (.word "DELETE" :: rest) .delete rest
  | create {ts rest : List Token} {kind raw : String} {v : Json} {payload : Payload}
    (hkind : ReadsName ts kind (.word "WITH" :: .block raw :: rest)) (hv : Json.read raw = .ok v)
    (ho : v.isObject = true) (hp : Payload.ofJson v = .ok payload) :
    ReadsAction (.word "CREATE" :: ts) (.create kind payload) rest
  | send {ts mid rest : List Token} {subject handler : String}
    (hsubject : ReadsName ts subject (.word "TO" :: mid))
    (hhandler : ReadsHandler mid handler rest) :
    ReadsAction (.word "SEND" :: ts) (.send subject handler) rest
  | invoke {ts rest : List Token} {handler : String} (hhandler : ReadsHandler ts handler rest) :
    ReadsAction (.word "INVOKE" :: ts) (.invoke handler []) rest
  | invokeEmpty {ts rest : List Token} {handler : String}
    (hhandler : ReadsHandler ts handler (.symbol .openParen :: .symbol .closeParen :: rest)) :
    ReadsAction (.word "INVOKE" :: ts) (.invoke handler []) rest
  | invokeWith {ts mid rest : List Token} {handler : String} {args : List Json}
    (hhandler : ReadsHandler ts handler (.symbol .openParen :: mid))
    (hargs : ReadsLiterals mid args rest) :
    ReadsAction (.word "INVOKE" :: ts) (.invoke handler args) rest
  | stop (rest : List Token) : ReadsAction (.word "END" :: rest) .stop rest

/-- Actions up to the end, with or without a comma between two of them. -/
inductive ReadsActions : List Token → List Action → Prop
  | nil : ReadsActions [] []
  | next {ts mid : List Token} {a : Action} {actions : List Action} (ha : ReadsAction ts a mid)
    (hmore : ReadsActions mid actions) : ReadsActions ts (a :: actions)
  | comma {ts mid : List Token} {a : Action} {actions : List Action}
    (ha : ReadsAction ts a (.symbol .comma :: mid)) (hmore : ReadsActions mid actions) :
    ReadsActions ts (a :: actions)

theorem ReadsLiterals.suffix {args : List Json} (h : ReadsLiterals ts args rest) : rest <:+ ts := by
  induction h with
  | last h => exact (List.suffix_cons _ _).trans h.suffix
  | cons h _ ih => exact (ih.trans (List.suffix_cons _ _)).trans h.suffix

theorem ReadsHandler.suffix {handler : String} (h : ReadsHandler ts handler rest) :
    rest <:+ ts := by
  cases h
  exact List.suffix_cons _ _

theorem ReadsName.suffix {name : String} (h : ReadsName ts name rest) : rest <:+ ts := by
  cases h <;> exact List.suffix_cons _ _

/-- An action takes up its verb at least. -/
theorem ReadsAction.suffix_tail {a : Action} (h : ReadsAction ts a rest) : rest <:+ ts.tail := by
  cases h with
  | update _ _ he =>
    exact he.suffix.trans ((List.suffix_cons _ _).trans (List.suffix_cons _ _))
  | notify => exact List.suffix_cons _ _
  | delete | stop => exact List.suffix_rfl
  | create hkind => exact (List.suffix_append [_, _] rest).trans hkind.suffix
  | send hsubject hhandler =>
    exact (hhandler.suffix.trans (List.suffix_cons _ _)).trans hsubject.suffix
  | invoke hhandler => exact hhandler.suffix
  | invokeEmpty hhandler => exact (List.suffix_append [_, _] rest).trans hhandler.suffix
  | invokeWith hhandler hargs =>
    exact (hargs.suffix.trans (List.suffix_cons _ _)).trans hhandler.suffix

theorem ReadsAction.ne_nil {a : Action} (h : ReadsAction ts a rest) : ts ≠ [] := by
  cases h <;> exact List.cons_ne_nil _ _

theorem ReadsAction.suffix {a : Action} (h : ReadsAction ts a rest) : rest <:+ ts :=
  h.suffix_tail.trans (List.tail_suffix ts)

theorem ReadsAction.shorter {a : Action} (h : ReadsAction ts a rest) : rest.length < ts.length := by
  have hlt : 0 < ts.length := List.length_pos_of_ne_nil h.ne_nil
  have hle := h.suffix_tail.length_le
  rw [List.length_tail] at hle
  omega

end Actions

section Rules

/-- An event. -/
inductive ReadsEvent : List Token → Event → List Token → Prop
  | tag {w : String} {e : Event} (he : Event.ofTag? w = some e) (rest : List Token) :
    ReadsEvent (.word w :: rest) e rest

/-- The events after the first: each after a bar, a comma, or nothing. -/
inductive ReadsEvents : List Token → List Event → List Token → Prop
  | nil (ts : List Token) : ReadsEvents ts [] ts
  | separated {t : Token} {ts mid rest : List Token} {e : Event} {events : List Event}
    (ht : t = .symbol .pipe ∨ t = .symbol .comma) (he : ReadsEvent ts e mid)
    (hmore : ReadsEvents mid events rest) : ReadsEvents (t :: ts) (e :: events) rest
  | next {ts mid rest : List Token} {e : Event} {events : List Event} (he : ReadsEvent ts e mid)
    (hmore : ReadsEvents mid events rest) : ReadsEvents ts (e :: events) rest

/-- An entity: a word that is no keyword and has no point, or a string that is not empty. -/
inductive ReadsEntity : List Token → String → List Token → Prop
  | word {w : String} (hk : isKeyword w = false) (hw : '.' ∉ w.toList) (rest : List Token) :
    ReadsEntity (.word w :: rest) w rest
  | str {s : String} (hs : s ≠ "") (rest : List Token) : ReadsEntity (.str s :: rest) s rest

/-- A rule, of all tokens. -/
inductive ReadsRule : List Token → Rule → Prop
  | mk {ts afterEvent afterEvents afterEntity body : List Token} {e : Event} {events : List Event}
    {entity : String} {condition : Option (List Clause)} {actions : List Action}
    (he : ReadsEvent ts e afterEvent) (hevents : ReadsEvents afterEvent events afterEvents)
    (hentity : ReadsEntity afterEvents entity afterEntity)
    (hcondition : ReadsCondition afterEntity condition (.word "THEN" :: body))
    (hactions : ReadsActions body actions) (line : Nat) :
    ReadsRule (.word "IF" :: ts) ⟨entity, Event.sorted (e :: events), condition, actions, line⟩

theorem ReadsEvent.suffix {e : Event} (h : ReadsEvent ts e rest) : rest <:+ ts := by
  cases h
  exact List.suffix_cons _ _

theorem ReadsEvents.suffix {events : List Event} (h : ReadsEvents ts events rest) :
    rest <:+ ts := by
  induction h with
  | nil => exact List.suffix_rfl
  | separated _ he _ ih => exact (ih.trans he.suffix).trans (List.suffix_cons _ _)
  | next he _ ih => exact ih.trans he.suffix

theorem ReadsEntity.suffix {entity : String} (h : ReadsEntity ts entity rest) : rest <:+ ts := by
  cases h <;> exact List.suffix_cons _ _

end Rules

end Bylaw.Rule
