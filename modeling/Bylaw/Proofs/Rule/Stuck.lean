import Bylaw.Proofs.Rule.Derivation

/-! Tokens that are in no rule: the word `MATCHES` with no pattern after it, a pattern with no word
after it, and two slashes next to each other. Every reader leaves them behind, so they are still
there when nothing may be left. Main statement: a statement with such tokens is no rule. -/

namespace Bylaw.Rule

/-- Whether a rule may go on with tokens after a pattern: a word or a parenthesis comes first. -/
def goesOn : List Token → Bool
  | .word _ :: _ | .symbol .closeParen :: _ => true
  | _ => false

/-- Tokens that hold the word `MATCHES` before what is no pattern, a pattern after which no rule
goes on, or two slashes next to each other. -/
inductive Stuck : List Token → Prop
  | unfinished {ts : List Token} (h : ts = [] ∨ goesOn ts = true) : Stuck (.word "MATCHES" :: ts)
  | dangling (source : String) {ts : List Token} (h : goesOn ts = false) :
    Stuck (.pattern source :: ts)
  | doubled (ts : List Token) : Stuck (.symbol .slash :: .symbol .slash :: ts)
  | cons (t : Token) {ts : List Token} (h : Stuck ts) : Stuck (t :: ts)

theorem not_stuck_nil : ¬Stuck [] := by
  rintro ⟨⟩

theorem Stuck.tail {t : Token} {ts : List Token} (h : Stuck (t :: ts))
    (hm : t = .word "MATCHES" → ts ≠ [] ∧ goesOn ts = false)
    (hp : ∀ source, t = .pattern source → goesOn ts = true)
    (hs : t = .symbol .slash → ts.head? ≠ some t) : Stuck ts := by
  cases h with
  | unfinished hts =>
    obtain ⟨hne, hgoes⟩ := hm rfl
    rcases hts with hnil | htrue
    · exact absurd hnil hne
    · cases hgoes.symm.trans htrue
  | dangling source hfalse => cases hfalse.symm.trans (hp source rfl)
  | doubled ts => exact absurd rfl (hs rfl)
  | cons t h => exact h

/-- Whether a token is a string, a number or a block. -/
def isPlain : Token → Bool
  | .str _ | .number _ | .block _ => true
  | _ => false

/-- From some tokens a reader gets to others: the last of them, and stuck if the first are. -/
structure Passes (ts rest : List Token) : Prop where
  suffix : rest <:+ ts
  stuck : Stuck ts → Stuck rest

namespace Passes

theorem length_le {ts rest : List Token} (h : Passes ts rest) : rest.length ≤ ts.length :=
  h.suffix.length_le

theorem refl (ts : List Token) : Passes ts ts := ⟨List.suffix_rfl, id⟩

theorem trans {ts us vs : List Token} (h : Passes ts us) (h' : Passes us vs) : Passes ts vs :=
  ⟨h'.suffix.trans h.suffix, h'.stuck ∘ h.stuck⟩

theorem of_cons {t : Token} {ts : List Token} (hm : t ≠ .word "MATCHES")
    (hp : ∀ source, t ≠ .pattern source) (hs : t ≠ .symbol .slash) : Passes (t :: ts) ts :=
  ⟨List.suffix_cons t ts, fun h => h.tail (fun heq => absurd heq hm)
    (fun source heq => absurd heq (hp source)) fun heq => absurd heq hs⟩

theorem of_plain {t : Token} {ts : List Token} (h : isPlain t = true) : Passes (t :: ts) ts := by
  refine of_cons ?_ (fun source => ?_) ?_ <;> (rintro rfl; cases h)

theorem of_word {w : String} {ts : List Token} (hw : w ≠ "MATCHES") : Passes (.word w :: ts) ts :=
  of_cons (fun h => hw (Token.word.inj h)) (by simp) (by simp)

theorem of_name {w : String} {ts : List Token} (hw : isKeyword w = false) :
    Passes (.word w :: ts) ts := by
  refine of_word ?_
  rintro rfl
  exact absurd hw (by decide)

theorem of_symbol {s : Symbol} {ts : List Token} (hs : s ≠ .slash) : Passes (.symbol s :: ts) ts :=
  of_cons (by simp) (by simp) fun h => hs (Token.symbol.inj h)

end Passes

/-- Tokens that no clause before them makes part of a rule. -/
def Blocked (ts : List Token) : Prop := Stuck ts ∨ goesOn ts = false

theorem Blocked.stuck {w : String} {ts : List Token} (h : Blocked (.word w :: ts)) :
    Stuck (.word w :: ts) := by
  rcases h with hstuck | hfalse
  · exact hstuck
  · cases hfalse

/-- From some tokens a reader of clauses, which may end with a pattern, gets to others: the last of
them, and blocked if the first are stuck. -/
structure Blocks (ts rest : List Token) : Prop where
  suffix : rest <:+ ts
  blocked : Stuck ts → Blocked rest

theorem Passes.blocks {ts rest : List Token} (h : Passes ts rest) : Blocks ts rest :=
  ⟨h.suffix, fun hstuck => .inl (h.stuck hstuck)⟩

theorem Passes.trans_blocks {ts us vs : List Token} (h : Passes ts us) (h' : Blocks us vs) :
    Blocks ts vs :=
  ⟨h'.suffix.trans h.suffix, h'.blocked ∘ h.stuck⟩

variable {ts rest : List Token}

theorem ne_matches_of_literalWord? {w : String} {v : Json} (h : literalWord? w = some v) :
    w ≠ "MATCHES" := by
  rintro rfl
  exact absurd h (by simp [literalWord?])

theorem ne_matches_of_isToday {w : String} (h : isToday w = true) : w ≠ "MATCHES" := by
  rintro rfl
  exact absurd h (by decide)

theorem ReadsLiteral.passes {v : Json} (h : ReadsLiteral ts v rest) : Passes ts rest := by
  cases h with
  | number | str => exact .of_plain rfl
  | word hv => exact .of_word (ne_matches_of_literalWord? hv)
  | negative => exact (Passes.of_symbol (by decide)).trans (.of_plain rfl)

theorem ReadsDays.passes {offset : Int} (h : ReadsDays ts offset rest) : Passes ts rest := by
  cases h with
  | later | earlier => exact (Passes.of_symbol (by decide)).trans (.of_plain rfl)
  | none => exact .refl _

theorem ReadsOperand.passes {x : Operand} (h : ReadsOperand ts x rest) : Passes ts rest := by
  cases h with
  | literal h => exact h.passes
  | today hw h => exact (Passes.of_word (ne_matches_of_isToday hw)).trans h.passes
  | field h => exact .of_name h.notKeyword

theorem not_readsPhrase_slash {e : Expr} :
    ¬ReadsPhrase (.symbol .slash :: ts) (.factor e) rest := by
  intro h
  cases h with
  | literal h => cases h

theorem ReadsPhrase.passes {p : Phrase} (h : ReadsPhrase ts p rest) : Passes ts rest := by
  -- By induction on the derivation: every token that is taken up may stand in front of stuck ones.
  induction h with
  | sum _ ih | product _ ih => exact ih
  | sumTail _ hop _ ihl ihr =>
    refine (ihl.trans (.of_cons ?_ (fun source => ?_) ?_)).trans ihr <;> (rintro rfl; cases hop)
  | productTail _ hop hr ihl ihr =>
    refine (ihl.trans ⟨List.suffix_cons _ _, fun hstuck => hstuck.tail ?_ ?_ ?_⟩).trans ihr
    · rintro rfl
      cases hop
    · rintro source rfl
      cases hop
    · -- A slash divides by a factor, which no slash begins.
      rintro rfl hhead
      obtain ⟨us, rfl⟩ := List.head?_eq_some_iff.mp hhead
      exact not_readsPhrase_slash hr
  | literal h => exact h.passes
  | template => exact .of_plain rfl
  | today hw h => exact (Passes.of_word (ne_matches_of_isToday hw)).trans h.passes
  | field h => exact .of_name h.notKeyword
  | minus _ ih => exact (Passes.of_symbol (by decide)).trans ih
  | enclosed _ ih =>
    exact ((Passes.of_symbol (by decide)).trans ih).trans (.of_symbol (by decide))
  | callEmpty hk =>
    exact ((Passes.of_name hk).trans (.of_symbol (by decide))).trans (.of_symbol (by decide))
  | call hk _ _ ih => exact ((Passes.of_name hk).trans (.of_symbol (by decide))).trans ih
  | lastArgument _ ih => exact ih.trans (.of_symbol (by decide))
  | argument _ _ ih ihmore => exact (ih.trans (.of_symbol (by decide))).trans ihmore

/-- Where a pattern is read there is one, and no rule goes on otherwise after it. -/
theorem patternAt_blocks {last : Token} {p : Pattern} (h : patternAt last ts = .ok (p, rest)) :
    ts ≠ [] ∧ goesOn ts = false ∧ Blocks ts rest := by
  obtain ⟨t, rfl | rfl, rfl | rfl⟩ := patternAt_cases h
  · refine ⟨List.cons_ne_nil _ _, rfl, List.suffix_cons _ rest, fun hstuck => ?_⟩
    cases hgoes : goesOn rest with
    | false => exact .inr hgoes
    | true => exact .inl (hstuck.tail (by simp) (fun _ _ => hgoes) (by simp))
  · have hpattern : Passes (.pattern p.source :: .symbol .closeParen :: rest)
        (.symbol .closeParen :: rest) :=
      ⟨List.suffix_cons _ _, fun hstuck => hstuck.tail (by simp) (fun _ _ => rfl) (by simp)⟩
    exact ⟨List.cons_ne_nil _ _, rfl, (((Passes.of_symbol (by decide)).trans hpattern).trans
      (Passes.of_symbol (by decide))).blocks⟩
  · exact ⟨List.cons_ne_nil _ _, rfl, (Passes.of_plain rfl).blocks⟩
  · exact ⟨List.cons_ne_nil _ _, rfl, (((Passes.of_symbol (by decide)).trans
      (Passes.of_plain rfl)).trans (Passes.of_symbol (by decide))).blocks⟩

theorem Passes.of_notTokens (negated : Bool) (ts : List Token) :
    Passes (Clause.notTokens negated ++ ts) ts := by
  cases negated with
  | true => exact .of_word (by decide)
  | false => exact .refl ts

theorem ReadsClause.blocks {c : Clause} (h : ReadsClause ts c rest) : Blocks ts rest := by
  cases h with
  | compare hl hop hr =>
    refine ((hl.passes.trans (.of_symbol ?_)).trans hr.passes).blocks
    rintro rfl
    cases hop
  | present hf => exact ((hf.passes.trans (.of_notTokens _ _)).trans (.of_word (by decide))).blocks
  | @fits _ mid _ _ _ _ hf hp =>
    obtain ⟨hne, hgoes, hblocks⟩ := patternAt_blocks hp
    have hword : Passes (.word "MATCHES" :: mid) mid :=
      ⟨List.suffix_cons _ _, fun hstuck => hstuck.tail (fun _ => ⟨hne, hgoes⟩) (by simp) (by simp)⟩
    exact ((hf.passes.trans (.of_notTokens _ _)).trans hword).trans_blocks hblocks
  | contains hf hn =>
    exact (((hf.passes.trans (.of_notTokens _ _)).trans (.of_word (by decide))).trans
      hn.passes).blocks

/-- Further clauses begin with the word `AND`, so that blocked tokens are left as they are. -/
theorem ReadsClauses.blocked {clauses : List Clause} (h : ReadsClauses ts clauses rest)
    (hts : Blocked ts) : Blocked rest := by
  induction h with
  | nil => exact hts
  | cons hc _ ih =>
    exact ih (((Passes.of_word (by decide)).trans_blocks hc.blocks).blocked hts.stuck)

theorem ReadsCondition.blocks {condition : Option (List Clause)}
    (h : ReadsCondition ts condition rest) : Blocks ts rest := by
  cases h with
  | none => exact (Passes.refl _).blocks
  | some hc hmore =>
    have hfirst := (Passes.of_word (w := "WHEN") (by decide)).trans_blocks hc.blocks
    exact ⟨hmore.suffix.trans hfirst.suffix, fun hstuck => hmore.blocked (hfirst.blocked hstuck)⟩

theorem ReadsLiterals.passes {args : List Json} (h : ReadsLiterals ts args rest) :
    Passes ts rest := by
  induction h with
  | last h => exact h.passes.trans (.of_symbol (by decide))
  | cons h _ ih => exact (h.passes.trans (.of_symbol (by decide))).trans ih

theorem ReadsHandler.passes {handler : String} (h : ReadsHandler ts handler rest) :
    Passes ts rest := by
  obtain ⟨hk, -, -⟩ := h
  exact .of_name hk

theorem ReadsName.passes {name : String} (h : ReadsName ts name rest) : Passes ts rest := by
  cases h with
  | word hk => exact .of_name hk
  | str => exact .of_plain rfl

theorem ReadsAction.passes {a : Action} (h : ReadsAction ts a rest) : Passes ts rest := by
  cases h with
  | update hk _ he =>
    exact (((Passes.of_word (by decide)).trans (.of_name hk)).trans (.of_symbol (by decide))).trans
      he.passes
  | notify => exact (Passes.of_word (by decide)).trans (.of_plain rfl)
  | delete | stop => exact .of_word (by decide)
  | create hkind =>
    exact (((Passes.of_word (by decide)).trans hkind.passes).trans (.of_word (by decide))).trans
      (.of_plain rfl)
  | send hsubject hhandler =>
    exact (((Passes.of_word (by decide)).trans hsubject.passes).trans (.of_word (by decide))).trans
      hhandler.passes
  | invoke hhandler => exact (Passes.of_word (by decide)).trans hhandler.passes
  | invokeEmpty hhandler =>
    exact (((Passes.of_word (by decide)).trans hhandler.passes).trans
      (.of_symbol (by decide))).trans (.of_symbol (by decide))
  | invokeWith hhandler hargs =>
    exact (((Passes.of_word (by decide)).trans hhandler.passes).trans
      (.of_symbol (by decide))).trans hargs.passes

/-- Actions take up all tokens, so that none of these may be stuck. -/
theorem ReadsActions.not_stuck {actions : List Action} (h : ReadsActions ts actions) :
    ¬Stuck ts := by
  induction h with
  | nil => exact not_stuck_nil
  | next ha _ ih => exact fun hstuck => ih (ha.passes.stuck hstuck)
  | comma ha _ ih =>
    exact fun hstuck => ih ((ha.passes.trans (.of_symbol (by decide))).stuck hstuck)

theorem ReadsEvent.passes {e : Event} (h : ReadsEvent ts e rest) : Passes ts rest := by
  obtain ⟨he, -⟩ := h
  refine .of_word ?_
  rintro rfl
  cases he

theorem ReadsEvents.passes {events : List Event} (h : ReadsEvents ts events rest) :
    Passes ts rest := by
  induction h with
  | nil => exact .refl _
  | separated ht he _ ih =>
    refine (Passes.trans ?_ he.passes).trans ih
    rcases ht with rfl | rfl <;> exact .of_symbol (by decide)
  | next he _ ih => exact he.passes.trans ih

theorem ReadsEntity.passes {entity : String} (h : ReadsEntity ts entity rest) : Passes ts rest := by
  cases h with
  | word hk => exact .of_name hk
  | str => exact .of_plain rfl

theorem ReadsRule.not_stuck {rule : Rule} (h : ReadsRule ts rule) : ¬Stuck ts := by
  cases h with
  | mk he hevents hentity hcondition hactions =>
    intro hstuck
    have hhead := (((Passes.of_word (w := "IF") (by decide)).trans he.passes).trans
      hevents.passes).trans hentity.passes
    have hthen := ((hhead.trans_blocks hcondition.blocks).blocked hstuck).stuck
    exact hactions.not_stuck ((Passes.of_word (by decide)).stuck hthen)

theorem not_stuck_of_statement {line : Nat} {rule : Rule} (h : statement line ts = .ok rule) :
    ¬Stuck ts :=
  (readsRule_of_statement h).not_stuck

end Bylaw.Rule
