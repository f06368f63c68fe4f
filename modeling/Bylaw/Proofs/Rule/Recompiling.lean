import Bylaw.Proofs.Rule.Rereading
import Bylaw.Proofs.Rule.Spelling

/-! Compiling the canonical text of rules. Main statement: the lines of ordinary rules compile to
these rules, if the slashes of no empty pattern begin a comment. -/

namespace Bylaw.Rule

open Token (Placed isWritable)

/-- Whether a token neither begins nor ends a statement. -/
def isInner : Token → Bool
  | .word w => w ≠ "IF"
  | .symbol s => s ≠ .semicolon
  | _ => true

theorem isInner_name {w : String} (h : isKeyword w = false) : isInner (.word w) = true := by
  have hne : w ≠ "IF" := by
    rintro rfl
    exact absurd h (by decide)
  simp [isInner, hne]

theorem all_intercalate {x : Token} (hx : isInner x = true) {lists : List (List Token)}
    (h : ∀ ts ∈ lists, ts.all isInner = true) : ([x].intercalate lists).all isInner = true := by
  cases lists with
  | nil => rfl
  | cons ts lists =>
    rw [intercalate_cons, List.all_append, h ts List.mem_cons_self, List.all_flatMap,
      Bool.true_and, List.all_eq_true]
    intro us hus
    simp [hx, h us (List.mem_cons_of_mem ts hus)]

theorem all_numberTokens (n : Number) : (Token.numberTokens n).all isInner = true := by
  cases n with
  | int i =>
    simp only [Token.numberTokens]
    split <;> rfl
  | real x =>
    simp only [Token.numberTokens]
    split <;> rfl

theorem all_literal (v : Json) : v.tokens.all isInner = true := by
  match v with
  | .null | .bool true | .bool false | .str _ | .arr _ | .obj _ => rfl
  | .num n => exact all_numberTokens n

theorem all_today (offset : Int) : (todayTokens offset).all isInner = true := by
  unfold todayTokens
  split
  · rfl
  · split <;> rfl

theorem all_operand {x : Operand} (hx : x.IsProper isWritable) : x.tokens.all isInner = true := by
  cases x with
  | literal v => exact all_literal v
  | field path =>
    have hpath : path.IsOperand := hx
    simp [Operand.tokens, isInner_name hpath.notKeyword]
  | today offset => exact all_today offset

theorem all_clause {c : Clause} (hc : c.IsProper isWritable) : c.tokens.all isInner = true := by
  have hnot (negated : Bool) : (Clause.notTokens negated).all isInner = true := by
    cases negated <;> rfl
  cases c with
  | compare left op right =>
    have hop : isInner (.symbol op.symbol) = true := by cases op <;> rfl
    simp only [Clause.tokens, List.all_append, List.all_cons, all_operand hc.1, all_operand hc.2,
      hop, Bool.and_self]
  | present field negated =>
    have hfield : field.IsOperand := hc
    simp only [Clause.tokens, List.all_append, List.all_cons, hnot,
      isInner_name hfield.notKeyword]
    rfl
  | fits field p negated =>
    simp only [Clause.tokens, List.all_append, List.all_cons, hnot, isInner_name hc.1.notKeyword]
    rfl
  | contains field needle negated =>
    simp only [Clause.tokens, List.all_append, List.all_cons, hnot, isInner_name hc.1.notKeyword,
      all_operand hc.2]
    rfl

theorem all_parenthesized (inside : Bool) {ts : List Token} (h : ts.all isInner = true) :
    (Expr.parenthesizedTokens inside ts).all isInner = true := by
  cases inside with
  | false => exact h
  | true =>
    simp only [Expr.parenthesizedTokens, if_pos, List.all_cons, List.all_append, h]
    rfl

mutual

theorem all_expr (e : Expr) (he : ∀ n ∈ e.nodes, n.IsProper isWritable) :
    e.tokens.all isInner = true := by
  match e with
  | .literal v => exact all_literal v
  | .template t => rfl
  | .field path =>
    have hpath : path.IsOperand := he (.field path) (by simp [Expr.nodes])
    simp [Expr.tokens, isInner_name hpath.notKeyword]
  | .today offset => exact all_today offset
  | .binary op left right =>
    have hop : isInner (.symbol op.symbol) = true := by cases op <;> rfl
    have hleft := all_expr left fun n hn => he n (by simp [Expr.nodes, hn])
    have hright := all_expr right fun n hn => he n (by simp [Expr.nodes, hn])
    simp only [Expr.tokens, List.all_append, List.all_cons, all_parenthesized _ hleft,
      all_parenthesized _ hright, hop, Bool.and_self]
  | .call handler args =>
    have hargs := all_args args fun n hn => he n (by simp [Expr.nodes, hn])
    simp only [Expr.tokens, Expr.tokensOfArgs_eq, List.all_cons, List.all_append,
      isInner_name (isKeyword_call handler),
      all_intercalate (x := .symbol .comma) rfl hargs]
    rfl

theorem all_args (es : List Expr) (he : ∀ n ∈ Expr.nodesOfArgs es, n.IsProper isWritable) :
    ∀ ts ∈ es.map Expr.tokens, ts.all isInner = true := by
  match es with
  | [] =>
    intro ts h
    cases h
  | x :: es =>
    have hx := all_expr x fun n hn => he n (by simp [Expr.nodesOfArgs, hn])
    have hes := all_args es fun n hn => he n (by simp [Expr.nodesOfArgs, hn])
    intro ts h
    rcases List.mem_cons.mp h with rfl | h
    · exact hx
    · exact hes ts h

end

theorem all_action {a : Action} (ha : a.IsProper isWritable) (ho : a.IsOrdinary) :
    a.tokens.all isInner = true := by
  cases a with
  | update field value =>
    simp only [Action.tokens, List.all_cons, isInner_name ha.1.notKeyword, all_expr value ha.2]
    rfl
  | notify message => rfl
  | delete => rfl
  | create kind payload =>
    simp only [Action.tokens, List.all_cons, isInner_name ho.2]
    rfl
  | send subject handler =>
    simp only [Action.tokens, List.all_cons, isInner_name ho.1.2, isInner_name ho.2]
    rfl
  | invoke handler args =>
    have hargs : ∀ ts ∈ args.map Json.tokens, ts.all isInner = true := by
      intro ts hts
      obtain ⟨v, -, rfl⟩ := List.mem_map.mp hts
      exact all_literal v
    simp only [Action.tokens, List.all_cons, List.all_append, isInner_name ho.1,
      all_intercalate (x := .symbol .comma) rfl hargs]
    rfl
  | stop => rfl

theorem all_events (events : List Event) :
    ([Token.symbol .pipe].intercalate (events.map fun e => [Token.word e.tag])).all isInner =
      true := by
  refine all_intercalate rfl fun ts hts => ?_
  obtain ⟨e, -, rfl⟩ := List.mem_map.mp hts
  cases e <;> rfl

theorem all_head {rule : Rule} (ho : rule.IsOrdinary) :
    ([Token.symbol .pipe].intercalate (rule.events.map fun e => [Token.word e.tag]) ++
      [entityToken rule.entity]).all isInner = true := by
  have hentity : isInner (entityToken rule.entity) = true := by
    unfold entityToken
    split
    · exact isInner_name ho.entity
    · rfl
  rw [List.all_append, all_events]
  simp [hentity]

theorem all_body {rule : Rule} (hp : rule.IsProper isWritable) (ho : rule.IsOrdinary) :
    rule.body.all isInner = true := by
  have hcondition : (conditionTokens rule.condition).all isInner = true := by
    cases hc : rule.condition with
    | none => rfl
    | some clauses =>
      have hclauses : ∀ ts ∈ clauses.map Clause.tokens, ts.all isInner = true := by
        intro ts hts
        obtain ⟨c, hcs, rfl⟩ := List.mem_map.mp hts
        exact all_clause ((hp.condition clauses hc).2 c hcs)
      rw [conditionTokens, List.all_cons, Clause.allTokens,
        all_intercalate (x := .word "AND") rfl hclauses]
      rfl
  have hactions : ∀ ts ∈ rule.actions.map Action.tokens, ts.all isInner = true := by
    intro ts hts
    obtain ⟨a, ha, rfl⟩ := List.mem_map.mp hts
    exact all_action (hp.actions a ha) (ho.actions a ha)
  have hhead := all_head ho
  rw [List.all_append] at hhead
  simp only [body, List.all_append, List.all_cons, hcondition,
    all_intercalate (x := .symbol .comma) rfl hactions]
  have hthen : isInner (.word "THEN") = true := rfl
  simpa [hthen] using hhead

/-- The tokens of statements: those that neither begin nor end one are collected. -/
theorem statementsFrom_append {inner rest current : List Placed} (hne : current ≠ [])
    (h : (inner.map Placed.token).all isInner = true) :
    statementsFrom current (inner ++ rest) = statementsFrom (inner.reverse ++ current) rest := by
  induction inner generalizing current with
  | nil => rfl
  | cons p inner ih =>
    rw [List.map_cons, List.all_cons, Bool.and_eq_true] at h
    have hsemicolon : p.token ≠ .symbol .semicolon := by
      intro heq
      rw [heq] at h
      cases h.1
    have hif : ¬ (p.token = .word "IF" ∧ !current.isEmpty) := by
      rintro ⟨heq, -⟩
      rw [heq] at h
      cases h.1
    rw [List.cons_append, statementsFrom, if_neg hsemicolon, if_neg hif,
      ih (List.cons_ne_nil p current) h.2]
    simp

/-- Statements that each begin with the word `IF` and nowhere hold it again; `ts` are the tokens
that are left of the one being collected. -/
theorem statementsFrom_tokens {bodies : List (List Token)}
    (h : ∀ us ∈ bodies, us.all isInner = true) {ts : List Token} (hts : ts.all isInner = true)
    {current placed : List Placed} (hne : current ≠ [])
    (hplaced : placed.map Placed.token = ts ++ bodies.flatMap (.word "IF" :: ·)) :
    (statementsFrom current placed).map (·.map Placed.token) =
      (current.reverse.map Placed.token ++ ts) :: bodies.map (.word "IF" :: ·) := by
  induction bodies generalizing ts current placed with
  | nil =>
    rw [List.flatMap_nil, List.append_nil] at hplaced
    rw [← List.append_nil placed, statementsFrom_append hne (hplaced ▸ hts)]
    simp [statementsFrom, hne, hplaced]
  | cons us bodies ih =>
    obtain ⟨inner, others, rfl, hinner, hothers⟩ := List.map_eq_append_iff.mp hplaced
    rw [List.flatMap_cons, List.cons_append] at hothers
    obtain ⟨p, more, rfl, hp, hmore⟩ := List.map_eq_cons_iff.mp hothers
    have hsemicolon : p.token ≠ .symbol .semicolon := by
      rw [hp]
      decide
    have hif : p.token = .word "IF" ∧ !(inner.reverse ++ current).isEmpty := by
      refine ⟨hp, ?_⟩
      simp [hne]
    have hrest := ih (fun vs hvs => h vs (List.mem_cons_of_mem us hvs)) (h us List.mem_cons_self)
      (List.cons_ne_nil p []) hmore
    rw [statementsFrom_append hne (hinner ▸ hts), statementsFrom, if_neg hsemicolon, if_pos hif,
      List.map_cons, hrest]
    simp [hp, hinner]

theorem statements_tokens {bodies : List (List Token)}
    (h : ∀ ts ∈ bodies, ts.all isInner = true) {placed : List Placed}
    (hplaced : placed.map Placed.token = bodies.flatMap (.word "IF" :: ·)) :
    (statements placed).map (·.map Placed.token) = bodies.map (.word "IF" :: ·) := by
  cases bodies with
  | nil =>
    obtain rfl : placed = [] := by simpa using hplaced
    rfl
  | cons ts bodies =>
    rw [List.flatMap_cons, List.cons_append] at hplaced
    obtain ⟨p, more, rfl, hp, hmore⟩ := List.map_eq_cons_iff.mp hplaced
    have hsemicolon : p.token ≠ .symbol .semicolon := by
      rw [hp]
      decide
    rw [statements, statementsFrom, if_neg hsemicolon, if_neg (by simp),
      statementsFrom_tokens (fun us hus => h us (List.mem_cons_of_mem ts hus))
        (h ts List.mem_cons_self) (List.cons_ne_nil p []) hmore]
    simp [hp]

/-- A rule as if it stood on no line. -/
def unplaced (rule : Rule) : Rule := { rule with line := 0 }

/-- Whether the lines of some rules compile to these rules. -/
def CompilesBack (rules : List Rule) : Prop :=
  ∃ again, compile (joinWith "\n" (rules.map text)) = .ok again ∧
    again.map unplaced = rules.map unplaced

theorem ofStatements_tokens {rules : List Rule} (hp : ∀ r ∈ rules, r.IsProper isWritable)
    (ho : ∀ r ∈ rules, r.IsOrdinary)
    (hjson : ∀ r ∈ rules, ∀ a ∈ r.actions, a.ReadsBack) (source : List Char)
    {placed : List (List Placed)} (h : placed.map (·.map Placed.token) = rules.map tokens) :
    ∃ again, ofStatements source placed = .ok again ∧
      again.map unplaced = rules.map unplaced := by
  induction rules generalizing placed with
  | nil =>
    obtain rfl : placed = [] := by simpa using h
    exact ⟨[], rfl, rfl⟩
  | cons rule rules ih =>
    obtain ⟨first, others, rfl, hfirst, hothers⟩ := List.map_eq_cons_iff.mp h
    obtain ⟨again, hagain, hsame⟩ := ih (fun r hr => hp r (List.mem_cons_of_mem rule hr))
      (fun r hr => ho r (List.mem_cons_of_mem rule hr))
      (fun r hr => hjson r (List.mem_cons_of_mem rule hr)) hothers
    have hrule := statement_tokens (hp rule List.mem_cons_self) (ho rule List.mem_cons_self)
      (hjson rule List.mem_cons_self) ((first.head?.map (·.line)).getD 1)
    refine ⟨{ rule with line := (first.head?.map (·.line)).getD 1 } :: again, ?_, ?_⟩
    · rw [ofStatements, ofStatement, hfirst, hrule]
      simp only [hagain]
    · simp [unplaced, hsame]

theorem tokenize_of_tokens {cs : List Char} {ts : List Token}
    (h : Token.tokens false cs = .ok ts) :
    ∃ placed, Token.tokenize cs = .ok placed ∧ placed.map Placed.token = ts := by
  unfold Token.tokens Token.forget at h
  unfold Token.tokenize
  cases hscan : Token.scanFrom false ⟨0, 1⟩ cs with
  | error e =>
    rw [hscan] at h
    cases h
  | ok placed =>
    rw [hscan] at h
    exact ⟨placed, rfl, Except.ok.inj h⟩

theorem tokens_of_tokenize {cs : List Char} {placed : List Placed}
    (h : Token.tokenize cs = .ok placed) :
    Token.tokens false cs = .ok (placed.map Placed.token) := by
  rw [Token.tokens, ← Token.tokenize, h]
  rfl

/-- What the text of a single statement compiles to: its rule, or an error. -/
theorem compile_of_tokens {source : String} {ts : List Token} (hinner : ts.all isInner = true)
    (htokens : Token.tokens false source.toList = .ok (.word "IF" :: ts)) :
    ∃ line, (∀ rule, statement line (.word "IF" :: ts) = .ok rule →
        compile source = .ok [rule]) ∧
      ∀ r, statement line (.word "IF" :: ts) = .error r → ∃ e, compile source = .error e := by
  obtain ⟨placed, hplaced, hmap⟩ := tokenize_of_tokens htokens
  have hbodies : ∀ us ∈ [ts], us.all isInner = true := List.forall_mem_singleton.mpr hinner
  have hsingle := statements_tokens hbodies (hmap.trans (List.append_nil _).symm)
  obtain ⟨first, others, hstatements, hfirst, hothers⟩ := List.map_eq_cons_iff.mp hsingle
  obtain rfl := List.map_eq_nil_iff.mp hothers
  have hcompile : compile source = ofStatements source.toList [first] := by
    rw [compile, hplaced, ← hstatements]
  refine ⟨(first.head?.map (·.line)).getD 1, fun rule hrule => ?_, fun r hr => ?_⟩
  · rw [hcompile, ofStatements, ofStatement, hfirst, hrule]
    rfl
  · refine ⟨⟨rejectionLine first r.remaining, statementText source.toList first, r.fault⟩, ?_⟩
    rw [hcompile, ofStatements, ofStatement, hfirst, hr]

theorem compilesBack {rules : List Rule} (hp : ∀ r ∈ rules, r.IsProper isWritable)
    (ho : ∀ r ∈ rules, r.IsOrdinary)
    (hjson : ∀ r ∈ rules, ∀ a ∈ r.actions, a.ReadsBack)
    (hs : ∀ r ∈ rules, r.IsShielded) : CompilesBack rules := by
  have htokens : Token.tokens false (joinWith "\n" (rules.map text)).toList =
      .ok ((rules.map body).flatMap (.word "IF" :: ·)) := by
    rw [(spells_joinLines hp ho hs).tokens_eq, List.flatMap_map]
    rfl
  obtain ⟨placed, hplaced, hmap⟩ := tokenize_of_tokens htokens
  have hinner : ∀ ts ∈ rules.map body, ts.all isInner = true := by
    intro ts hts
    obtain ⟨r, hr, rfl⟩ := List.mem_map.mp hts
    exact all_body (hp r hr) (ho r hr)
  have hstatements := statements_tokens hinner hmap
  rw [List.map_map] at hstatements
  obtain ⟨again, hagain, hsame⟩ := ofStatements_tokens hp ho hjson
    (joinWith "\n" (rules.map text)).toList hstatements
  refine ⟨again, ?_, hsame⟩
  rw [compile, hplaced]
  exact hagain

end Bylaw.Rule
